import ColumnarStore.Foundation.Runs
import ColumnarStore.Foundation.Sharing
import ColumnarStore.Segment.Format

/-! One reader, many threads.

A segment is read by whoever holds it: scanners, and the threads `PrefetchColumns` starts.
`GetColumn` looks into a cache and positions and reads the file under a lock; `GetZoneMap`
and `GetBloomFilter` position and read the same stream without one. A step of a call takes
the lock, positions the stream, or reads and ends. Calls of `GetColumn` may overlap in any
way; as long as the others do not come between a call's seek and its read, and nothing
comes between theirs, every call returns what reading the file afresh gives, no column is
loaded twice, and every call can return (`reader_fresh`). -/
namespace ColumnarStore
open Foundation Encoding

inductive ReaderCall where
  | getColumn (idx : Nat)
  | getZoneMap (idx : Nat)
  | getBloomFilter (idx : Nat)
  deriving DecidableEq

inductive ReaderResult where
  | column (result : Outcome Column)
  | zoneMap (result : Outcome ZoneMap)
  | bloomFilter (result : Outcome BloomFilter)

/-- Before its first step; with the lock, ahead of the look into the cache; between seek and
read; and after its end. -/
inductive ReaderPhase where
  | waiting
  | locked
  | sought
  | returned (result : ReaderResult)

/-- Between taking the lock and giving it up, in a call that takes it. -/
def ReaderPhase.inside : ReaderPhase → Bool
  | locked | sought => true
  | _ => false

/-- `failed` is the state of the stream after a read past its end; `loaded` has the columns
that were put into the cache. -/
structure SegmentReader where
  segment : Segment
  cachedColumns : List (Option Column) := []
  position : Nat := 0
  failed : Bool := false
  owner : Option Nat := none
  threads : List (ReaderCall × ReaderPhase)
  loaded : List Nat := []

namespace ReaderCall

/-- The call takes the lock. -/
def locks : ReaderCall → Bool
  | getColumn _ => true
  | _ => false

def idx : ReaderCall → Nat
  | getColumn idx => idx
  | getZoneMap idx => idx
  | getBloomFilter idx => idx

/-- Where the bytes are that the call reads, and how many. -/
def region (colMeta : ColumnMeta) : ReaderCall → Nat × Nat
  | getColumn _ => (colMeta.offset, colMeta.size)
  | getZoneMap _ => (colMeta.zoneMapOffset, colMeta.zoneMapSize)
  | getBloomFilter _ => (colMeta.bloomOffset, colMeta.bloomSize)

def place (seg : Segment) (call : ReaderCall) : Outcome (Nat × Nat) := do
  let colMeta ← seg.columnMeta call.idx
  return call.region colMeta

/-- What the call makes of the bytes it was given. -/
def read (seg : Segment) (data : Outcome (List UInt8)) : ReaderCall → ReaderResult
  | getColumn idx => .column do
    let colMeta ← seg.columnMeta idx
    let encodedData ← data
    let column ← orFault .nullPointer (Column.create colMeta.type)
    column.decode (createDecoder colMeta.encoding colMeta.type) encodedData
  | getZoneMap _ => .zoneMap (data.bind ZoneMap.read)
  | getBloomFilter _ => .bloomFilter (data.bind BloomFilter.read)

/-- A region of no bytes is not read, but for that of a column. -/
def absent (size : Nat) : ReaderCall → Option ReaderResult
  | getColumn _ => none
  | getZoneMap _ => if size = 0 then some (.zoneMap (.ok {})) else none
  | getBloomFilter _ => if size = 0 then some (.bloomFilter (.ok .empty)) else none

/-- A call with an index past the header's columns. -/
def faulted (fault : Fault) : ReaderCall → ReaderResult
  | getColumn _ => .column (.error fault)
  | getZoneMap _ => .zoneMap (.error fault)
  | getBloomFilter _ => .bloomFilter (.error fault)

/-- What the call gives on the file alone. -/
def fresh (seg : Segment) : ReaderCall → ReaderResult
  | getColumn idx => .column (seg.getColumn idx)
  | getZoneMap idx => .zoneMap (seg.getZoneMap idx)
  | getBloomFilter idx => .bloomFilter (seg.getBloomFilter idx)

/-- The region of the call lies within the file. -/
def InFile (seg : Segment) (call : ReaderCall) : Prop :=
  ∀ offset size, call.place seg = .ok (offset, size) → ∃ bytes, seg.readBytes offset size = .ok bytes

end ReaderCall

namespace SegmentReader

/-- Some calls that nobody has begun. -/
def opened (seg : Segment) (calls : List ReaderCall) : SegmentReader :=
  {segment := seg, position := headerSize seg.numColumns, threads := calls.map fun call => (call, .waiting)}

/-- The call ends and gives up the lock if it has it. -/
def finish (s : SegmentReader) (i : Nat) (call : ReaderCall) (result : ReaderResult) : SegmentReader :=
  {s with
    owner := if call.locks then none else s.owner
    threads := s.threads.set i (call, .returned result)}

/-- `seekg`, if there is something to read; a stream that has failed stays where it is. -/
def seek (s : SegmentReader) (i : Nat) (call : ReaderCall) : SegmentReader :=
  match call.place s.segment with
  | .error fault => s.finish i call (call.faulted fault)
  | .ok (offset, size) =>
    match call.absent size with
    | some result => s.finish i call result
    | none =>
      {s with
        position := if s.failed then s.position else offset
        threads := s.threads.set i (call, .sought)}

/-- A stream that has failed gives nothing more. -/
def streamBytes (s : SegmentReader) (size : Nat) : Outcome (List UInt8) :=
  if s.failed ∧ size ≠ 0 then .error .unreadable else s.segment.readBytes s.position size

/-- A column that was read goes into the cache. -/
def store (s : SegmentReader) : ReaderCall → ReaderResult → SegmentReader
  | .getColumn idx, .column (.ok column) =>
    {s with cachedColumns := s.cachedColumns.set idx (some column), loaded := s.loaded ++ [idx]}
  | _, _ => s

/-- `read`, and what follows it. -/
def readAt (s : SegmentReader) (i : Nat) (call : ReaderCall) : SegmentReader :=
  match call.place s.segment with
  | .error fault => s.finish i call (call.faulted fault)
  | .ok (_, size) =>
    let data := s.streamBytes size
    let result := call.read s.segment data
    {s.store call result with
      position := s.position + size
      failed := s.failed || !data.isOk}.finish i call result

/-- The cache has a place for the column. -/
def grow (s : SegmentReader) (idx : Nat) : SegmentReader :=
  {s with cachedColumns :=
    if s.cachedColumns.length ≤ idx then resized s.cachedColumns (idx + 1) none else s.cachedColumns}

/-- The next step of a thread. -/
def stepThread (s : SegmentReader) (i : Nat) : ReaderCall → ReaderPhase → SegmentReader
  | .getColumn idx, .waiting =>
    if s.owner.isSome then s else {s with owner := some i, threads := s.threads.set i (.getColumn idx, .locked)}
  | call, .waiting => s.seek i call
  | .getColumn idx, .locked =>
    match s.cachedColumns.getD idx none with
    | some column => s.finish i (.getColumn idx) (.column (.ok column))
    | none => (s.grow idx).seek i (.getColumn idx)
  | call, .sought => s.readAt i call
  | _, _ => s

def step (s : SegmentReader) (i : Nat) : SegmentReader :=
  match s.threads[i]? with
  | none => s
  | some (call, phase) => s.stepThread i call phase

def run (s : SegmentReader) (schedule : List Nat) : SegmentReader := schedule.foldl step s

/-- The step does not come between another call's seek and its read, but for calls that
both take the lock. -/
def Undisturbed (s : SegmentReader) (i : Nat) : Prop :=
  ∀ j ≠ i, ∀ call, s.threads[j]? = some (call, .sought) →
    call.locks = true ∧ ∀ own phase, s.threads[i]? = some (own, phase) → own.locks = true

def AllReturned (s : SegmentReader) : Prop := ∀ th ∈ s.threads, ∃ result, th.2 = .returned result

/-- The states that undisturbed steps lead to. -/
def Reached (seg : Segment) (calls : List ReaderCall) (s : SegmentReader) : Prop :=
  ∃ schedule, Along step Undisturbed (opened seg calls) schedule ∧ (opened seg calls).run schedule = s

/-! ### What a step does -/

/-- The thread has returned or waits for the lock; no thread is in the third case. -/
def Rests (s : SegmentReader) (call : ReaderCall) (phase : ReaderPhase) : Prop :=
  (∃ result, phase = .returned result) ∨ phase = .waiting ∧ call.locks = true ∧ s.owner.isSome = true ∨
    phase = .locked ∧ call.locks = false

/-- The ways a step of a thread can go. -/
inductive Turn (s : SegmentReader) (i : Nat) : SegmentReader → Prop where
  | lock (idx : Nat) (hi : s.threads[i]? = some (.getColumn idx, .waiting)) (hfree : s.owner = none) :
      Turn s i {s with owner := some i, threads := s.threads.set i (.getColumn idx, .locked)}
  | hit (idx : Nat) (column : Column) (hi : s.threads[i]? = some (.getColumn idx, .locked))
      (hhit : s.cachedColumns.getD idx none = some column) :
      Turn s i (s.finish i (.getColumn idx) (.column (.ok column)))
  | miss (idx : Nat) (hi : s.threads[i]? = some (.getColumn idx, .locked))
      (hmiss : s.cachedColumns.getD idx none = none) : Turn s i ((s.grow idx).seek i (.getColumn idx))
  | seek (call : ReaderCall) (hi : s.threads[i]? = some (call, .waiting)) (hcall : call.locks = false) :
      Turn s i (s.seek i call)
  | read (call : ReaderCall) (hi : s.threads[i]? = some (call, .sought)) : Turn s i (s.readAt i call)
  | rest (hrest : ∀ call phase, s.threads[i]? = some (call, phase) → Rests s call phase) : Turn s i s

theorem turn_step (s : SegmentReader) (i : Nat) : Turn s i (s.step i) := by
  unfold step
  cases hi : s.threads[i]? with
  | none => exact .rest fun call phase h => absurd (hi.symm.trans h) (by simp)
  | some th =>
    obtain ⟨call, phase⟩ := th
    have hrest : Rests s call phase → Turn s i s := by
      intro h
      refine .rest fun call' phase' hi' => ?_
      cases hi.symm.trans hi'
      exact h
    cases phase with
    | waiting =>
      cases call with
      | getColumn idx =>
        show Turn s i (if s.owner.isSome then s else _)
        cases howner : s.owner with
        | none => exact .lock idx hi howner
        | some j => exact hrest (.inr (.inl ⟨rfl, rfl, by rw [howner]; rfl⟩))
      | getZoneMap idx => exact .seek _ hi rfl
      | getBloomFilter idx => exact .seek _ hi rfl
    | locked =>
      cases call with
      | getColumn idx =>
        show Turn s i (match s.cachedColumns.getD idx none with | some column => _ | none => _)
        cases hget : s.cachedColumns.getD idx none with
        | some column => exact .hit idx column hi hget
        | none => exact .miss idx hi hget
      | getZoneMap idx => exact hrest (.inr (.inr ⟨rfl, rfl⟩))
      | getBloomFilter idx => exact hrest (.inr (.inr ⟨rfl, rfl⟩))
    | sought => cases call <;> exact .read _ hi
    | returned result => cases call <;> exact hrest (.inl ⟨result, rfl⟩)

/-! ### Reading afresh -/

theorem grow_cachedColumns (s : SegmentReader) (idx : Nat) : (s.grow idx).cachedColumns =
    if s.cachedColumns.length ≤ idx then resized s.cachedColumns (idx + 1) none else s.cachedColumns := rfl

theorem getD_grow (s : SegmentReader) (idx j : Nat) :
    (s.grow idx).cachedColumns.getD j none = s.cachedColumns.getD j none := by
  rw [grow_cachedColumns]
  split
  · next hshort =>
    rw [resized, List.take_of_length_le (by omega)]
    simp only [List.getD_eq_getElem?_getD, List.getElem?_append, List.getElem?_replicate]
    by_cases hj : j < s.cachedColumns.length
    · rw [if_pos hj]
    · rw [if_neg hj, List.getElem?_eq_none (by omega)]
      split <;> rfl
  · rfl

theorem lt_length_grow (s : SegmentReader) (idx : Nat) : idx < (s.grow idx).cachedColumns.length := by
  rw [grow_cachedColumns]
  split
  · simp [resized]
    omega
  · omega

end SegmentReader

namespace ReaderCall
variable {seg : Segment} {call : ReaderCall}

theorem fresh_of_faulted {fault : Fault} (h : call.place seg = .error fault) :
    call.fresh seg = call.faulted fault := by
  cases hmeta : seg.columnMeta call.idx with
  | ok colMeta => cases h.symm.trans (by rw [place, hmeta]; rfl : call.place seg = .ok (call.region colMeta))
  | error fault' =>
    cases h.symm.trans (by rw [place, hmeta]; rfl : call.place seg = .error fault')
    cases call with
    | getColumn idx =>
      change seg.columnMeta idx = _ at hmeta
      rw [fresh, Segment.getColumn, hmeta]
      rfl
    | getZoneMap idx =>
      change seg.columnMeta idx = _ at hmeta
      rw [fresh, Segment.getZoneMap, hmeta]
      rfl
    | getBloomFilter idx =>
      change seg.columnMeta idx = _ at hmeta
      rw [fresh, Segment.getBloomFilter, hmeta]
      rfl

theorem exists_meta {place : Nat × Nat} (h : call.place seg = .ok place) :
    ∃ colMeta, seg.columnMeta call.idx = .ok colMeta ∧ place = call.region colMeta := by
  obtain ⟨colMeta, hmeta, hregion⟩ := bind_eq_ok.mp h
  exact ⟨colMeta, hmeta, (Except.ok.inj hregion).symm⟩

theorem fresh_of_absent {offset size : Nat} {result : ReaderResult} (h : call.place seg = .ok (offset, size))
    (habsent : call.absent size = some result) : call.fresh seg = result := by
  obtain ⟨colMeta, hmeta, hregion⟩ := exists_meta h
  cases call with
  | getColumn idx => cases habsent
  | getZoneMap idx =>
    cases hregion
    change seg.columnMeta idx = _ at hmeta
    by_cases hsize : colMeta.zoneMapSize = 0
    · rw [absent, if_pos hsize] at habsent
      rw [fresh, Segment.getZoneMap, hmeta, bind_ok, if_pos hsize, ← Option.some.inj habsent]
      rfl
    · rw [absent, if_neg hsize] at habsent
      cases habsent
  | getBloomFilter idx =>
    cases hregion
    change seg.columnMeta idx = _ at hmeta
    by_cases hsize : colMeta.bloomSize = 0
    · rw [absent, if_pos hsize] at habsent
      rw [fresh, Segment.getBloomFilter, hmeta, bind_ok, if_pos hsize, ← Option.some.inj habsent]
      rfl
    · rw [absent, if_neg hsize] at habsent
      cases habsent

theorem fresh_of_place {offset size : Nat} (h : call.place seg = .ok (offset, size))
    (habsent : call.absent size = none) : call.fresh seg = call.read seg (seg.readBytes offset size) := by
  obtain ⟨colMeta, hmeta, hregion⟩ := exists_meta h
  cases call with
  | getColumn idx =>
    cases hregion
    change seg.columnMeta idx = _ at hmeta
    rw [fresh, Segment.getColumn, read, hmeta]
    rfl
  | getZoneMap idx =>
    cases hregion
    change seg.columnMeta idx = _ at hmeta
    have hsize : ¬ colMeta.zoneMapSize = 0 := by
      intro hsize
      rw [absent, if_pos hsize] at habsent
      cases habsent
    rw [fresh, Segment.getZoneMap, hmeta, bind_ok, if_neg hsize]
    rfl
  | getBloomFilter idx =>
    cases hregion
    change seg.columnMeta idx = _ at hmeta
    have hsize : ¬ colMeta.bloomSize = 0 := by
      intro hsize
      rw [absent, if_pos hsize] at habsent
      cases habsent
    rw [fresh, Segment.getBloomFilter, hmeta, bind_ok, if_neg hsize]
    rfl

end ReaderCall

namespace SegmentReader
variable {seg : Segment} {calls : List ReaderCall} {s s' : SegmentReader} {i : Nat} {call : ReaderCall}
  {phase : ReaderPhase}

/-! ### What every step keeps -/

/-- The cache has the columns of the file that were loaded, each once. -/
structure Cached (seg : Segment) (s : SegmentReader) : Prop where
  column : ∀ (idx : Nat) (column : Column), s.cachedColumns.getD idx none = some column → seg.getColumn idx = .ok column
  loaded : ∀ idx, idx ∈ s.loaded ↔ (s.cachedColumns.getD idx none).isSome = true
  loadedOnce : s.loaded.Nodup

/-- The stream is where the call reads, and its column is not in the cache. -/
structure Ready (s : SegmentReader) (call : ReaderCall) : Prop where
  position : ∃ size, call.place s.segment = .ok (s.position, size) ∧ call.absent size = none
  missing : ∀ idx, call = .getColumn idx → s.cachedColumns.getD idx none = none ∧ idx < s.cachedColumns.length

structure Settled (seg : Segment) (calls : List ReaderCall) (s : SegmentReader) : Prop where
  segment : s.segment = seg
  calls : s.threads.map Prod.fst = calls
  stream : s.failed = false
  owner : ∀ i, s.owner = some i ↔
    ∃ call phase, s.threads[i]? = some (call, phase) ∧ call.locks = true ∧ phase.inside = true
  locked : ∀ (i : Nat) (call : ReaderCall), s.threads[i]? = some (call, .locked) → call.locks = true
  ready : ∀ (i : Nat) (call : ReaderCall), s.threads[i]? = some (call, .sought) → Ready s call
  alone : ∀ (i j : Nat) (call call' : ReaderCall), s.threads[i]? = some (call, .sought) →
    s.threads[j]? = some (call', .sought) → i = j
  returned : ∀ (i : Nat) (call : ReaderCall) (result : ReaderResult),
    s.threads[i]? = some (call, .returned result) → result = call.fresh seg
  cached : Cached seg s

theorem getElem?_opened (seg : Segment) (calls : List ReaderCall)
    (h : (opened seg calls).threads[i]? = some (call, phase)) : phase = .waiting := by
  obtain ⟨call', -, heq⟩ := List.mem_map.mp (List.mem_of_getElem? h)
  exact (Prod.ext_iff.mp heq).2.symm

theorem settled_opened (seg : Segment) (calls : List ReaderCall) : Settled seg calls (opened seg calls) where
  segment := rfl
  calls := by
    show (calls.map _).map Prod.fst = calls
    rw [List.map_map]
    exact List.map_id calls
  stream := rfl
  owner i := by
    refine iff_of_false (fun h => by cases h) fun h => ?_
    obtain ⟨call, phase, hi, -, hinside⟩ := h
    rw [getElem?_opened seg calls hi] at hinside
    cases hinside
  locked i call hi := by cases getElem?_opened seg calls hi
  ready i call hi := by cases getElem?_opened seg calls hi
  alone i j call call' hi := by cases getElem?_opened seg calls hi
  returned i call result hi := by cases getElem?_opened seg calls hi
  cached :=
    { column := fun idx column h => by cases h
      loaded := fun idx => iff_of_false List.not_mem_nil fun h => by cases h
      loadedOnce := List.nodup_nil }

/-- A thread goes on, and no other is between its seek and its read. -/
theorem Settled.update (h : Settled seg calls s) (phase' : ReaderPhase) (hi : s.threads[i]? = some (call, phase))
    (honly : ∀ j call', s.threads[j]? = some (call', .sought) → j = i) (hsegment : s'.segment = s.segment)
    (hthreads : s'.threads = s.threads.set i (call, phase')) (hstream : s'.failed = false)
    (hself : s'.owner = some i ↔ call.locks = true ∧ phase'.inside = true)
    (hothers : ∀ j ≠ i, s'.owner = some j ↔ s.owner = some j) (hlocked : phase' = .locked → call.locks = true)
    (hready : phase' = .sought → Ready s' call)
    (hreturned : ∀ result, phase' = .returned result → result = call.fresh seg) (hcached : Cached seg s') :
    Settled seg calls s' := by
  have hget : ∀ j, s'.threads[j]? = if j = i then some (call, phase') else s.threads[j]? := by
    intro j
    rw [hthreads]
    exact getElem?_set_moved hi _ j
  have hat : ∀ {j own p}, s'.threads[j]? = some (own, p) →
      j = i ∧ own = call ∧ p = phase' ∨ j ≠ i ∧ s.threads[j]? = some (own, p) := by
    intro j own p hj
    rw [hget j] at hj
    by_cases hji : j = i
    · rw [if_pos hji] at hj
      cases hj
      exact .inl ⟨hji, rfl, rfl⟩
    · rw [if_neg hji] at hj
      exact .inr ⟨hji, hj⟩
  refine ⟨hsegment.trans h.segment, ?_, hstream, fun j => ?_, fun j own hj => ?_, fun j own hj => ?_,
    fun j k own own' hj hk => ?_, fun j own result hj => ?_, hcached⟩
  · have hcall : (s.threads.map Prod.fst)[i]? = some call := by
      rw [List.getElem?_map, hi]
      rfl
    obtain ⟨hlt, hcall⟩ := List.getElem?_eq_some_iff.mp hcall
    rw [hthreads, List.map_set, ← h.calls]
    show (s.threads.map Prod.fst).set i call = _
    rw [← hcall, List.set_getElem_self]
  · by_cases hji : j = i
    · rw [hji, hself]
      constructor
      · intro hheld
        exact ⟨call, phase', by rw [hget i, if_pos rfl], hheld⟩
      · intro hheld
        obtain ⟨own, p, hj, hheld⟩ := hheld
        rcases hat hj with ⟨-, rfl, rfl⟩ | ⟨hne, -⟩
        · exact hheld
        · exact absurd rfl hne
    · rw [hothers j hji, h.owner j, hget j, if_neg hji]
  · rcases hat hj with ⟨-, rfl, hp⟩ | ⟨-, hj⟩
    · exact hlocked hp.symm
    · exact h.locked j own hj
  · rcases hat hj with ⟨-, rfl, hp⟩ | ⟨hne, hj⟩
    · exact hready hp.symm
    · exact absurd (honly j own hj) hne
  · have hthis : ∀ {j own}, s'.threads[j]? = some (own, .sought) → j = i := by
      intro j own hj
      rcases hat hj with ⟨hji, -⟩ | ⟨-, hj⟩
      · exact hji
      · exact honly j own hj
    exact (hthis hj).trans (hthis hk).symm
  · rcases hat hj with ⟨-, rfl, hp⟩ | ⟨-, hj⟩
    · exact hreturned result hp.symm
    · exact h.returned j own result hj

/-- When a thread makes an undisturbed step, no other is between its seek and its read. -/
theorem Settled.quiet (h : Settled seg calls s) (hclear : Undisturbed s i) (hi : s.threads[i]? = some (call, phase))
    (hlock : call.locks = true → s.owner = none ∨ s.owner = some i) (j : Nat)
    (call' : ReaderCall) (hj : s.threads[j]? = some (call', .sought)) : j = i := by
  by_contra hji
  obtain ⟨hlocks, hown⟩ := hclear j hji call' hj
  have howner : s.owner = some j := (h.owner j).mpr ⟨call', .sought, hj, hlocks, rfl⟩
  rcases hlock (hown call phase hi) with hnone | hself
  · cases howner.symm.trans hnone
  · exact hji (Option.some.inj (howner.symm.trans hself))

theorem Settled.finish (h : Settled seg calls s) (hi : s.threads[i]? = some (call, phase))
    (honly : ∀ j call', s.threads[j]? = some (call', .sought) → j = i) {s₁ : SegmentReader}
    (hsegment : s₁.segment = s.segment) (hthreads : s₁.threads = s.threads) (howner : s₁.owner = s.owner)
    (hinside : call.locks = true → phase.inside = true) (hstream : s₁.failed = false) (hcached : Cached seg s₁)
    {result : ReaderResult} (hresult : result = call.fresh seg) : Settled seg calls (s₁.finish i call result) := by
  have hheld : call.locks = true → s.owner = some i := fun hlocks =>
    (h.owner i).mpr ⟨call, phase, hi, hlocks, hinside hlocks⟩
  refine h.update (.returned result) hi honly hsegment ?_ hstream ?_ ?_ (fun hp => by cases hp)
    (fun hp => by cases hp) ?_ ⟨hcached.column, hcached.loaded, hcached.loadedOnce⟩
  · show s₁.threads.set i _ = _
    rw [hthreads]
  · show (if call.locks = true then none else s₁.owner) = some i ↔ _
    refine iff_of_false ?_ fun hp => by cases hp.2
    by_cases hlocks : call.locks = true
    · rw [if_pos hlocks]
      exact fun h => by cases h
    · rw [if_neg hlocks, howner]
      intro hself
      obtain ⟨own, p, hi', hlocks', -⟩ := (h.owner i).mp hself
      cases hi.symm.trans hi'
      exact hlocks hlocks'
  · intro j hji
    show (if call.locks = true then none else s₁.owner) = some j ↔ _
    by_cases hlocks : call.locks = true
    · rw [if_pos hlocks, hheld hlocks]
      exact iff_of_false (fun h => by cases h) fun h => hji (Option.some.inj h).symm
    · rw [if_neg hlocks, howner]
  · intro result' hp
    cases hp
    exact hresult

theorem Settled.grow (h : Settled seg calls s) (idx : Nat) : Settled seg calls (s.grow idx) where
  segment := h.segment
  calls := h.calls
  stream := h.stream
  owner := h.owner
  locked := h.locked
  ready i call hi :=
    { position := (h.ready i call hi).position
      missing := by
        intro j hcall
        obtain ⟨hmissing, hlt⟩ := (h.ready i call hi).missing j hcall
        refine ⟨(s.getD_grow idx j).trans hmissing, ?_⟩
        rw [grow_cachedColumns]
        split
        · rw [resized, List.take_of_length_le (by omega), List.length_append]
          omega
        · exact hlt }
  alone := h.alone
  returned := h.returned
  cached :=
    { column := fun j column hj => h.cached.column j column ((s.getD_grow idx j).symm.trans hj)
      loaded := fun j => by rw [s.getD_grow idx j]; exact h.cached.loaded j
      loadedOnce := h.cached.loadedOnce }

/-- A call positions the stream. -/
theorem Settled.seek (h : Settled seg calls s) (hi : s.threads[i]? = some (call, phase))
    (honly : ∀ j call', s.threads[j]? = some (call', .sought) → j = i)
    (hinside : call.locks = true → phase.inside = true)
    (hmissing : ∀ idx, call = .getColumn idx → s.cachedColumns.getD idx none = none ∧ idx < s.cachedColumns.length) :
    Settled seg calls (s.seek i call) := by
  have hfinish : ∀ {result}, result = call.fresh seg → Settled seg calls (s.finish i call result) := fun hresult =>
    h.finish hi honly rfl rfl rfl hinside h.stream h.cached hresult
  unfold SegmentReader.seek
  cases hplace : call.place s.segment with
  | error fault => exact hfinish (h.segment ▸ (ReaderCall.fresh_of_faulted hplace).symm)
  | ok place =>
    obtain ⟨offset, size⟩ := place
    dsimp only
    cases habsent : call.absent size with
    | some result => exact hfinish (h.segment ▸ (ReaderCall.fresh_of_absent hplace habsent).symm)
    | none =>
      dsimp only
      refine h.update .sought hi honly rfl rfl h.stream ?_ (fun j _ => Iff.rfl) (fun hp => by cases hp)
        (fun _ => ⟨⟨size, ?_, habsent⟩, hmissing⟩) (fun _ hp => by cases hp)
        ⟨h.cached.column, h.cached.loaded, h.cached.loadedOnce⟩
      · show s.owner = some i ↔ _
        rw [h.owner i]
        constructor
        · intro hheld
          obtain ⟨own, p, hi', hlocks, -⟩ := hheld
          cases hi.symm.trans hi'
          exact ⟨hlocks, rfl⟩
        · intro hheld
          exact ⟨call, phase, hi, hheld.1, hinside hheld.1⟩
      · show call.place s.segment = .ok (if s.failed then s.position else offset, size)
        rw [h.stream]
        exact hplace

/-- A column that was read from its place in the file is a new one in the cache. -/
theorem Cached.store (h : Cached seg s)
    (hmissing : ∀ idx, call = .getColumn idx → s.cachedColumns.getD idx none = none ∧ idx < s.cachedColumns.length) :
    Cached seg (s.store call (call.fresh seg)) := by
  cases call with
  | getZoneMap idx => exact h
  | getBloomFilter idx => exact h
  | getColumn idx =>
    rw [ReaderCall.fresh]
    cases hcolumn : seg.getColumn idx with
    | error fault => exact h
    | ok column =>
      obtain ⟨hmiss, hlt⟩ := hmissing idx rfl
      have hget : ∀ j, (s.store (.getColumn idx) (.column (.ok column))).cachedColumns.getD j none =
          if j = idx then some column else s.cachedColumns.getD j none := by
        intro j
        show (s.cachedColumns.set idx (some column)).getD j none = _
        simp only [List.getD_eq_getElem?_getD, getElem?_set_moved (List.getElem?_eq_getElem hlt)]
        split <;> rfl
      have hfresh : idx ∉ s.loaded := by
        rw [h.loaded idx, hmiss]
        simp
      refine ⟨fun j c hj => ?_, fun j => ?_, ?_⟩
      · rw [hget j] at hj
        by_cases hji : j = idx
        · rw [if_pos hji] at hj
          rw [hji, hcolumn, Option.some.inj hj]
        · rw [if_neg hji] at hj
          exact h.column j c hj
      · show j ∈ s.loaded ++ [idx] ↔ _
        rw [hget j, List.mem_append, h.loaded j]
        by_cases hji : j = idx
        · rw [if_pos hji, hji]
          simp
        · rw [if_neg hji]
          simp [hji]
      · show (s.loaded ++ [idx]).Nodup
        rw [List.nodup_append]
        refine ⟨h.loadedOnce, List.nodup_singleton idx, fun a ha b hb hab => hfresh ?_⟩
        rwa [← List.mem_singleton.mp hb, ← hab]

theorem store_rest (s : SegmentReader) (call : ReaderCall) (result : ReaderResult) :
    (s.store call result).threads = s.threads ∧ (s.store call result).owner = s.owner ∧
      (s.store call result).segment = s.segment := by
  unfold store
  split <;> exact ⟨rfl, rfl, rfl⟩

/-- What a call has read is what the file has there. -/
theorem Settled.read (h : Settled seg calls s) (hfile : call.InFile seg)
    (hi : s.threads[i]? = some (call, .sought)) : Settled seg calls (s.readAt i call) := by
  obtain ⟨⟨size, hplace, habsent⟩, hmissing⟩ := h.ready i call hi
  have honly : ∀ j call', s.threads[j]? = some (call', .sought) → j = i := fun j call' hj =>
    h.alone j i call' call hj hi
  have hdata : s.streamBytes size = seg.readBytes s.position size := by
    rw [streamBytes, h.stream, if_neg (by simp), h.segment]
  obtain ⟨bytes, hbytes⟩ := hfile s.position size (h.segment ▸ hplace)
  have hresult : call.read s.segment (s.streamBytes size) = call.fresh seg := by
    rw [ReaderCall.fresh_of_place (h.segment ▸ hplace) habsent, hdata, h.segment]
  have hcached := h.cached.store hmissing
  obtain ⟨hthreads, howner, hsegment⟩ := s.store_rest call (call.fresh seg)
  unfold readAt
  rw [hplace]
  dsimp only
  rw [hresult]
  refine h.finish hi honly ?_ ?_ ?_ (fun _ => rfl) ?_ ?_ rfl
  · exact hsegment
  · exact hthreads
  · exact howner
  rotate_left
  · exact ⟨hcached.column, hcached.loaded, hcached.loadedOnce⟩
  · show (s.failed || !(s.streamBytes size).isOk) = false
    rw [h.stream, hdata, hbytes]
    rfl

/-- One step. -/
theorem Settled.step (hfile : ∀ call ∈ calls, call.InFile seg) (h : Settled seg calls s) (hclear : Undisturbed s i) :
    Settled seg calls (s.step i) := by
  have hmem : ∀ {call phase}, s.threads[i]? = some (call, phase) → call ∈ calls := by
    intro call phase hi
    rw [← h.calls]
    exact List.mem_map_of_mem (List.mem_of_getElem? hi)
  have hturn := turn_step s i
  generalize s.step i = s' at hturn
  cases hturn with
  | lock idx hi hfree =>
    refine h.update .locked hi (h.quiet hclear hi fun _ => .inl hfree) rfl rfl h.stream
      (iff_of_true rfl ⟨rfl, rfl⟩) (fun j hji => ?_) (fun _ => rfl) (fun hp => by cases hp) (fun _ hp => by cases hp)
      ⟨h.cached.column, h.cached.loaded, h.cached.loadedOnce⟩
    rw [hfree]
    exact iff_of_false (fun hj => hji (Option.some.inj hj).symm) fun hj => by cases hj
  | hit idx column hi hhit =>
    have howner : s.owner = some i := (h.owner i).mpr ⟨_, _, hi, rfl, rfl⟩
    refine h.finish hi (h.quiet hclear hi fun _ => .inr howner) rfl rfl rfl (fun _ => rfl) h.stream h.cached ?_
    rw [ReaderCall.fresh, h.cached.column idx column hhit]
  | miss idx hi hmiss =>
    have howner : s.owner = some i := (h.owner i).mpr ⟨_, _, hi, rfl, rfl⟩
    refine (h.grow idx).seek hi (h.quiet hclear hi fun _ => .inr howner) (fun _ => rfl) fun j hj => ?_
    cases hj
    exact ⟨(s.getD_grow idx idx).trans hmiss, s.lt_length_grow idx⟩
  | seek call hi hcall =>
    have hlocks : ¬ call.locks = true := by simp [hcall]
    refine h.seek hi (h.quiet hclear hi fun hl => absurd hl hlocks) (fun hl => absurd hl hlocks) fun j hj => ?_
    rw [hj] at hcall
    cases hcall
  | read call hi => exact h.read (hfile call (hmem hi)) hi
  | rest hrest => exact h

theorem Settled.run (hfile : ∀ call ∈ calls, call.InFile seg) (h : Settled seg calls s) {schedule : List Nat}
    (hclear : Along SegmentReader.step Undisturbed s schedule) : Settled seg calls (s.run schedule) := by
  induction schedule generalizing s with
  | nil => exact h
  | cons i rest ih =>
    obtain ⟨hfirst, hrest⟩ := hclear
    exact ih (h.step hfile hfirst) hrest

/-! ### Every call can return -/

/-- Steps that a thread has still to make. -/
def remaining (th : ReaderCall × ReaderPhase) : Nat :=
  match th.2 with
  | .waiting => 3
  | .locked => 2
  | .sought => 1
  | .returned _ => 0

def work (s : SegmentReader) : Nat := (s.threads.map remaining).sum

theorem work_set_lt (phase' : ReaderPhase) (hi : s.threads[i]? = some (call, phase))
    (hthreads : s'.threads = s.threads.set i (call, phase'))
    (hlt : remaining (call, phase') < remaining (call, phase)) : s'.work < s.work := by
  obtain ⟨rest, hsum, hset⟩ := exists_sum_rest remaining hi
  rw [work, work, hthreads, hset, hsum]
  omega

theorem work_seek_lt (hi : s.threads[i]? = some (call, phase)) (hphase : 1 < remaining (call, phase)) :
    (s.seek i call).work < s.work := by
  have hfinish : ∀ result, (s.finish i call result).work < s.work := fun result =>
    work_set_lt (.returned result) hi rfl (by simp only [remaining] at hphase ⊢; omega)
  unfold seek
  cases hplace : call.place s.segment with
  | error fault => exact hfinish _
  | ok place =>
    obtain ⟨offset, size⟩ := place
    dsimp only
    cases habsent : call.absent size with
    | some result => exact hfinish result
    | none => exact work_set_lt .sought hi rfl hphase

theorem work_readAt_lt (hi : s.threads[i]? = some (call, .sought)) : (s.readAt i call).work < s.work := by
  unfold readAt
  cases hplace : call.place s.segment with
  | error fault => exact work_set_lt (.returned (call.faulted fault)) hi rfl (Nat.lt_succ_self 0)
  | ok place =>
    refine work_set_lt (.returned (call.read s.segment (s.streamBytes place.2))) hi ?_ (Nat.lt_succ_self 0)
    show ((s.store _ _).threads.set i _) = _
    rw [(s.store_rest _ _).1]

theorem work_step_lt (hi : s.threads[i]? = some (call, phase)) (hmoves : ¬ Rests s call phase) :
    (s.step i).work < s.work := by
  have hturn := turn_step s i
  generalize s.step i = s' at hturn
  cases hturn with
  | lock idx hi' hfree => exact work_set_lt .locked hi' rfl (Nat.lt_succ_self 2)
  | hit idx column hi' hhit => exact work_set_lt (.returned (.column (.ok column))) hi' rfl Nat.two_pos
  | miss idx hi' hmiss =>
    show _ < (s.grow idx).work
    exact work_seek_lt hi' Nat.one_lt_two
  | seek own hi' hown => exact work_seek_lt hi' (Nat.lt_of_sub_eq_succ rfl)
  | read own hi' => exact work_readAt_lt hi'
  | rest hrest => exact absurd (hrest call phase hi) hmoves

/-- As long as not all calls have returned, one of them can make a step undisturbed. -/
theorem Settled.progress (h : Settled seg calls s) (hopen : ¬ s.AllReturned) :
    ∃ i, Undisturbed s i ∧ (s.step i).work < s.work := by
  by_cases hsought : ∃ (i : Nat) (call : ReaderCall), s.threads[i]? = some (call, .sought)
  · obtain ⟨i, call, hi⟩ := hsought
    refine ⟨i, fun j hji call' hj => absurd (h.alone j i call' call hj hi) hji, work_step_lt hi ?_⟩
    simp [Rests]
  · have hclear : ∀ i, Undisturbed s i := fun i j _ call hj => absurd ⟨j, call, hj⟩ hsought
    cases howner : s.owner with
    | some i =>
      -- Whoever has the lock looks into the cache next.
      obtain ⟨call, phase, hi, hlocks, hinside⟩ := (h.owner i).mp howner
      refine ⟨i, hclear i, work_step_lt hi ?_⟩
      cases phase with
      | locked => simp [Rests, hlocks]
      | sought => exact absurd ⟨i, call, hi⟩ hsought
      | waiting => cases hinside
      | returned result => cases hinside
    | none =>
      unfold AllReturned at hopen
      push Not at hopen
      obtain ⟨th, hmem, hphase⟩ := hopen
      obtain ⟨i, hi⟩ := List.mem_iff_getElem?.mp hmem
      obtain ⟨call, phase⟩ := th
      refine ⟨i, hclear i, work_step_lt hi ?_⟩
      cases phase with
      | waiting => simp [Rests, howner]
      | locked =>
        cases howner.symm.trans ((h.owner i).mpr ⟨call, _, hi, h.locked i call hi, rfl⟩)
      | sought => exact absurd ⟨i, call, hi⟩ hsought
      | returned result => exact absurd rfl (hphase result)

theorem Settled.finishable (hfile : ∀ call ∈ calls, call.InFile seg) (h : Settled seg calls s) :
    ∃ more, Along SegmentReader.step Undisturbed s more ∧ (s.run more).AllReturned := by
  induction hwork : s.work using Nat.strong_induction_on generalizing s with
  | h n ih =>
    by_cases hall : s.AllReturned
    · exact ⟨[], trivial, hall⟩
    · obtain ⟨i, hclear, hlt⟩ := h.progress hall
      obtain ⟨more, hmore, hend⟩ := ih (s.step i).work (hwork ▸ hlt) (h.step hfile hclear) rfl
      exact ⟨i :: more, ⟨hclear, hmore⟩, hend⟩

/-- Calls of `GetColumn` alone, as `PrefetchColumns` makes them, are undisturbed in any order. -/
theorem Settled.prefetch (hfile : ∀ call ∈ calls, call.InFile seg) (hlocks : ∀ call ∈ calls, call.locks = true)
    (h : Settled seg calls s) (schedule : List Nat) : Along SegmentReader.step Undisturbed s schedule := by
  induction schedule generalizing s with
  | nil => trivial
  | cons i rest ih =>
    have hall : ∀ (j : Nat) (call : ReaderCall) (phase : ReaderPhase), s.threads[j]? = some (call, phase) →
        call.locks = true := by
      intro j call phase hj
      refine hlocks call ?_
      rw [← h.calls]
      exact List.mem_map_of_mem (List.mem_of_getElem? hj)
    have hclear : Undisturbed s i := fun j _ call hj => ⟨hall j call _ hj, fun own phase hi => hall i own phase hi⟩
    exact ⟨hclear, ih (h.step hfile hclear)⟩

/-- Whatever order the threads go in, every call returns what the file has, a column is
loaded at most once, and all calls can be brought to their ends. -/
theorem reader_fresh {seg : Segment} {calls : List ReaderCall} (hfile : ∀ call ∈ calls, call.InFile seg)
    {s : SegmentReader} (h : Reached seg calls s) :
    (∀ (i : Nat) (call : ReaderCall) (result : ReaderResult), s.threads[i]? = some (call, .returned result) →
      calls[i]? = some call ∧ result = call.fresh seg) ∧
    s.loaded.Nodup ∧
    (∀ idx, idx ∈ s.loaded ↔ ∃ column, seg.getColumn idx = .ok column ∧
      s.cachedColumns.getD idx none = some column) ∧
    ∃ more, Along SegmentReader.step Undisturbed s more ∧ (s.run more).AllReturned := by
  obtain ⟨schedule, hclear, rfl⟩ := h
  have h := (settled_opened seg calls).run hfile hclear
  refine ⟨fun i call result hi => ⟨?_, h.returned i call result hi⟩, h.cached.loadedOnce, fun idx => ?_,
    h.finishable hfile⟩
  · rw [← h.calls, List.getElem?_map, hi]
    rfl
  · rw [h.cached.loaded idx, Option.isSome_iff_exists]
    constructor
    · intro hcolumn
      obtain ⟨column, hcolumn⟩ := hcolumn
      exact ⟨column, h.cached.column idx column hcolumn, hcolumn⟩
    · intro hcolumn
      obtain ⟨column, -, hcolumn⟩ := hcolumn
      exact ⟨column, hcolumn⟩

/-- One column of one value, and a zone map behind it. -/
def sampleColumn : ColumnMeta :=
  {offset := headerSize 1, size := 4, size_lt := by decide, type := .int32, encoding := .plain, stats := {}
   zoneMapOffset := headerSize 1 + 4, zoneMapSize := 4, bloomOffset := 0, bloomSize := 0}

def sampleSegment : Segment :=
  {header := {numColumns := 1, numRows := 1, columns := [sampleColumn]}, body := [1, 0, 0, 0, 2, 0, 0, 0]}

/-- Two threads prefetch the column, the second begins while the first has the lock. -/
def prefetched : SegmentReader := (opened sampleSegment [.getColumn 0, .getColumn 0]).run [0, 1, 0, 0, 1, 1]

theorem sampleSegment_inFile :
    ∀ call ∈ [ReaderCall.getColumn 0, ReaderCall.getColumn 0], call.InFile sampleSegment := by
  intro call hcall offset size hplace
  have hcall : call = .getColumn 0 := by simpa using hcall
  rw [hcall] at hplace
  cases hplace
  exact ⟨[1, 0, 0, 0], rfl⟩

theorem reached_prefetched : Reached sampleSegment [.getColumn 0, .getColumn 0] prefetched :=
  ⟨_, (settled_opened _ _).prefetch sampleSegment_inFile (fun call hcall => by
    have hcall : call = .getColumn 0 := by simpa using hcall
    rw [hcall]
    rfl) _, rfl⟩

theorem prefetched_fresh : (∀ (i : Nat) (call : ReaderCall) (result : ReaderResult),
    prefetched.threads[i]? = some (call, .returned result) →
      [ReaderCall.getColumn 0, .getColumn 0][i]? = some call ∧ result = call.fresh sampleSegment) ∧
    prefetched.loaded.Nodup :=
  have h := reader_fresh sampleSegment_inFile reached_prefetched
  ⟨h.1, h.2.1⟩

/-- A zone map that is sought between a column's seek and its read: the cache has the wrong
bytes from then on. -/
example : ((opened sampleSegment [.getColumn 0, .getZoneMap 0]).run [0, 0, 1, 0]).cachedColumns.map
    (Option.map fun column => column.readValues 0 1) = [some (.ok [2, 0, 0, 0])] := by
  rfl

end SegmentReader

end ColumnarStore
