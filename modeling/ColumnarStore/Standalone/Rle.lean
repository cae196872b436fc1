import ColumnarStore.Encoding.Records
import ColumnarStore.Foundation.Runs
import ColumnarStore.Predicate.Program

/-! The standalone run-length codec.

An encoder keeps the runs of the list it was last given, unless the list was empty: then it
returns before it clears them. `Write` stores the number of runs in four bytes and the
pairs after it, `Read` makes an encoder of them. A decoder goes over pairs; for each it
writes what is left of the run up to `count`, either the value or the outcome of one
comparison. The buffer it writes to belongs to its caller. -/
namespace ColumnarStore.Standalone.Rle
open Foundation Encoding Predicates
open Encoding.RunLength (uint32Max overwrite overwrite_append getElem?_overwrite_of_lt getElem?_overwrite_of_le)
variable (t : DataType)

structure RlePair where
  value : Native t
  count : BitVec 32
  deriving DecidableEq

/-! ### Encoding -/

structure RleEncoder where
  runs : List (RlePair t) := []

variable {t}

/-- The runs of the list from `current` on, of which `runLength` values are read. -/
def emplaceRuns (current : Native t) (runLength : BitVec 32) : List (Native t) → List (RlePair t)
  | [] => [⟨current, runLength⟩]
  | x :: rest =>
    if Native.eq t x current ∧ runLength.toNat < uint32Max then emplaceRuns current (runLength + 1) rest
    else ⟨current, runLength⟩ :: emplaceRuns x 1 rest

namespace RleEncoder

def encode (enc : RleEncoder t) : List (Native t) → RleEncoder t
  | [] => enc
  | x :: rest => {runs := emplaceRuns x 1 rest}

def storeRun (run : RlePair t) : List UInt8 := storeWord t.typeSize run.value ++ storeWord 4 run.count

def write (enc : RleEncoder t) : List UInt8 :=
  storeWord 4 (BitVec.ofNat 32 enc.runs.length) ++ enc.runs.flatMap storeRun

def loadRuns : Nat → List UInt8 → Option (List (RlePair t))
  | 0, _ => some []
  | numRuns + 1, ptr => do
    let (value, ptr) ← nextWord t.typeSize ptr
    let (count, ptr) ← nextWord 4 ptr
    let rest ← loadRuns numRuns ptr
    return ⟨value, count⟩ :: rest

def read (data : List UInt8) : Outcome (RleEncoder t) := orFault .outOfBounds do
  let (numRuns, ptr) ← nextWord 4 data
  let runs ← loadRuns numRuns.toNat ptr
  return {runs}

end RleEncoder

/-! ### Decoding -/

/-- `n` times `x` from the `pos`-th place on. -/
def fill {α : Type} (out : List α) (pos n : Nat) (x : α) : Outcome (List α) :=
  if pos + n ≤ out.length then .ok (out.take pos ++ List.replicate n x ++ out.drop (pos + n))
  else .error .outOfBounds

/-- The loop over runs from the test of its condition on; `put` writes one run. -/
def forRuns {α : Type} (put : List α → Nat → Nat → Native t → Outcome (List α)) (count : Nat) :
    List (RlePair t) → Nat → List α → Outcome (List α)
  | [], _, out => .ok out
  | run :: rest, outPos, out =>
    if outPos < count then do
      let toWrite := Min.min run.count.toNat (count - outPos)
      let out ← put out outPos toWrite run.value
      forRuns put count rest (outPos + toWrite) out
    else .ok out

variable (t) in
structure RleDecoder where
  runs : List (RlePair t)

/-- `match`, which stays `false` for a predicate that is not a comparison. -/
def compares (pred : PredicateType) (x value : Native t) : Bool :=
  match pred with
  | .equal => Native.eq t x value
  | .notEqual => !Native.eq t x value
  | .lessThan => Native.lt t x value
  | .lessEqual => Native.lt t x value || Native.eq t x value
  | .greaterThan => Native.lt t value x
  | .greaterEqual => Native.lt t value x || Native.eq t x value
  | _ => false

namespace RleDecoder

def decode (d : RleDecoder t) (out : List (Native t)) (count : Nat) : Outcome (List (Native t)) :=
  forRuns (fun out outPos toWrite value => fill out outPos toWrite value) count d.runs 0 out

def filter (d : RleDecoder t) (pred : PredicateType) (value : Native t) (mask : List Bool) (count : Nat) :
    Outcome (List Bool) :=
  forRuns (fun mask outPos toWrite x => fill mask outPos toWrite (compares pred x value)) count d.runs 0 mask

end RleDecoder

/-! ### What the runs spell -/

def spelled (runs : List (RlePair t)) : List (Native t) :=
  runs.flatMap fun run => List.replicate run.count.toNat run.value

/-- The total length of the runs. -/
def total (runs : List (RlePair t)) : Nat := (runs.map fun run => run.count.toNat).sum

@[simp] theorem spelled_cons (run : RlePair t) (rest : List (RlePair t)) :
    spelled (run :: rest) = List.replicate run.count.toNat run.value ++ spelled rest := rfl

@[simp] theorem total_cons (run : RlePair t) (rest : List (RlePair t)) :
    total (run :: rest) = run.count.toNat + total rest := rfl

theorem length_spelled (runs : List (RlePair t)) : (spelled runs).length = total runs := by
  rw [spelled, total, List.length_flatMap]
  simp only [List.length_replicate]

theorem fill_append {α : Type} (before : List α) {n : Nat} {out : List α} (h : n ≤ out.length) (x : α) :
    fill (before ++ out) before.length n x = .ok (before ++ List.replicate n x ++ out.drop n) := by
  have hroom : before.length + n ≤ (before ++ out).length := by
    rw [List.length_append]
    omega
  rw [fill, if_pos hroom, List.take_left' rfl, List.drop_append]
  simp

/-- A loop that writes `f` of its value for every run puts `f` of what the runs spell over the
buffer, up to `count`. The rest of the buffer stays. -/
theorem forRuns_eq {α : Type} {put : List α → Nat → Nat → Native t → Outcome (List α)} {f : Native t → α}
    (hput : ∀ out outPos toWrite value, put out outPos toWrite value = fill out outPos toWrite (f value))
    (runs : List (RlePair t)) {count : Nat} (before out : List α) (hpos : before.length ≤ count)
    (hroom : Min.min (count - before.length) (total runs) ≤ out.length) :
    forRuns put count runs before.length (before ++ out) =
      .ok (before ++ overwrite (((spelled runs).map f).take (count - before.length)) out) := by
  induction runs generalizing before out with
  | nil => simp [forRuns, spelled, overwrite]
  | cons run rest ih =>
    rw [forRuns]
    rcases hpos.lt_or_eq with hlt | rfl
    · obtain ⟨n, hn⟩ : ∃ n, Min.min run.count.toNat (count - before.length) = n := ⟨_, rfl⟩
      rw [total_cons] at hroom
      have hfits : n ≤ out.length := by omega
      have hlen : (before ++ List.replicate n (f run.value)).length = before.length + n := by
        rw [List.length_append, List.length_replicate]
      have hrest := ih (before ++ List.replicate n (f run.value)) (out.drop n) (by omega) (by
        rw [hlen, List.length_drop]
        omega)
      rw [hlen] at hrest
      simp only [if_pos hlt, hn, hput, fill_append before hfits, bind_ok, hrest]
      have hleft : count - before.length - run.count.toNat = count - (before.length + n) := by omega
      rw [spelled_cons, List.map_append, List.map_replicate, List.take_append, List.take_replicate,
        List.length_replicate, hleft, Nat.min_comm, hn, overwrite_append, List.take_replicate, List.length_replicate,
        Nat.min_eq_right hfits, List.append_assoc]
    · rw [if_neg (lt_irrefl _)]
      simp [overwrite]

/-! ### Filtering -/

def predicateType : CompareOp → PredicateType
  | .eq => .equal
  | .ne => .notEqual
  | .lt => .lessThan
  | .le => .lessEqual
  | .gt => .greaterThan
  | .ge => .greaterEqual

namespace RleDecoder

theorem decode_eq (d : RleDecoder t) {out : List (Native t)} {count : Nat}
    (h : Min.min count (total d.runs) ≤ out.length) :
    d.decode out count = .ok (overwrite ((spelled d.runs).take count) out) := by
  have hloop := forRuns_eq (f := id) (fun _ _ _ _ => rfl) d.runs [] out (Nat.zero_le count) h
  rwa [List.map_id] at hloop

theorem filter_eq (d : RleDecoder t) (pred : PredicateType) (value : Native t) {mask : List Bool} {count : Nat}
    (h : Min.min count (total d.runs) ≤ mask.length) :
    d.filter pred value mask count =
      .ok (overwrite (((spelled d.runs).map fun x => compares pred x value).take count) mask) :=
  forRuns_eq (f := fun x => compares pred x value) (fun _ _ _ _ => rfl) d.runs [] mask (Nat.zero_le count) h

end RleDecoder

section Integers
variable (ht : t.isInteger = true)
include ht

theorem compares_int (op : CompareOp) (x value : Native t) :
    compares (predicateType op) x value = op.holds x.toInt value.toInt := by
  have heq : Native.eq t x value = decide (x.toInt = value.toInt) := by
    rw [Native.eq_int ht, decide_eq_decide, BitVec.toInt_inj]
  cases op with
  | eq => exact heq
  | ne => simp [compares, predicateType, heq, CompareOp.holds]
  | lt => exact Native.lt_int ht x value
  | gt => exact Native.lt_int ht value x
  | le => simp [compares, predicateType, heq, Native.lt_int ht, CompareOp.holds, le_iff_lt_or_eq]
  | ge => simp [compares, predicateType, heq, Native.lt_int ht, CompareOp.holds, le_iff_lt_or_eq, eq_comm]

/-- **The mask of a filter holds the outcome of the comparison for every decoded value, and what it
held before from the end of the runs on.** -/
theorem filter_agrees (d : RleDecoder t) (op : CompareOp) (value : Native t) {count : Nat} {out : List (Native t)}
    {mask : List Bool} (hout : Min.min count (total d.runs) ≤ out.length)
    (hmask : Min.min count (total d.runs) ≤ mask.length) :
    ∃ values verdicts, d.decode out count = .ok values ∧
      d.filter (predicateType op) value mask count = .ok verdicts ∧
      (∀ i < Min.min count (total d.runs), ∃ v, values[i]? = some v ∧
        verdicts[i]? = some (op.holds v.toInt value.toInt)) ∧
      ∀ i, Min.min count (total d.runs) ≤ i → verdicts[i]? = mask[i]? := by
  refine ⟨_, _, d.decode_eq hout, d.filter_eq (predicateType op) value hmask, fun i hi => ?_, fun i hi => ?_⟩
  · have hspelled : i < (spelled d.runs).length := by
      rw [length_spelled]
      omega
    have hnew : i < ((spelled d.runs).take count).length := by
      rw [List.length_take, length_spelled]
      exact hi
    refine ⟨(spelled d.runs)[i], ?_, ?_⟩
    · rw [getElem?_overwrite_of_lt hnew (by omega), List.getElem?_take_of_lt (by omega),
        List.getElem?_eq_getElem hspelled]
    · rw [← List.map_take, getElem?_overwrite_of_lt (by rwa [List.length_map]) (by omega), List.getElem?_map,
        List.getElem?_take_of_lt (by omega), List.getElem?_eq_getElem hspelled, Option.map_some, compares_int ht]
  · refine getElem?_overwrite_of_le ?_
    rw [List.length_take, List.length_map, length_spelled]
    exact hi

end Integers

/-- Four runs: the third is empty, and the fourth is cut. -/
theorem atMostFive_agrees : ∃ values verdicts,
    (⟨[⟨3, 2⟩, ⟨9, 1⟩, ⟨4, 0⟩, ⟨5, 4⟩]⟩ : RleDecoder .int32).decode (List.replicate 6 0) 5 = .ok values ∧
      (⟨[⟨3, 2⟩, ⟨9, 1⟩, ⟨4, 0⟩, ⟨5, 4⟩]⟩ : RleDecoder .int32).filter .lessEqual 5 (List.replicate 6 false) 5 =
        .ok verdicts ∧
      (∀ i < 5, ∃ v : Native .int32, values[i]? = some v ∧ verdicts[i]? = some (CompareOp.le.holds v.toInt 5)) ∧
      ∀ i, 5 ≤ i → verdicts[i]? = (List.replicate 6 false)[i]? :=
  filter_agrees (t := .int32) rfl ⟨[⟨3, 2⟩, ⟨9, 1⟩, ⟨4, 0⟩, ⟨5, 4⟩]⟩ .le 5 (by decide) (by decide)

/-! ### Storing the runs -/

namespace RleEncoder

theorem loadRuns_storeRuns (runs : List (RlePair t)) (rest : List UInt8) :
    loadRuns runs.length (runs.flatMap storeRun ++ rest) = some runs := by
  induction runs with
  | nil => rfl
  | cons run tail ih => simp [loadRuns, storeRun, ih]

/-- As many runs as four bytes can count come back. -/
theorem read_write {enc : RleEncoder t} (h : enc.runs.length < 2 ^ 32) : read enc.write = .ok enc := by
  have hload := loadRuns_storeRuns enc.runs []
  rw [List.append_nil] at hload
  have hnum : (BitVec.ofNat 32 enc.runs.length).toNat = enc.runs.length := toNat_ofNat_of_lt h
  rw [read, write, nextWord_storeWord]
  simp [hnum, hload]

end RleEncoder

/-! ### The runs of a list -/

/-- A run as the codec of the factory has it. -/
def pairOf (run : Native t × Nat) : RlePair t := ⟨run.1, BitVec.ofNat 32 run.2⟩

/-- The loop makes the runs the codec of the factory makes. -/
theorem emplaceRuns_eq (current : Native t) {k : Nat} (hk : k ≤ uint32Max) (rest : List (Native t)) :
    emplaceRuns current (BitVec.ofNat 32 k) rest = (RunLength.runs t current k rest).map pairOf := by
  induction rest generalizing current k with
  | nil => rfl
  | cons x rest ih =>
    have hcount : (BitVec.ofNat 32 k).toNat = k := toNat_ofNat_of_lt (Nat.lt_of_le_pred (by decide) hk)
    rw [emplaceRuns, RunLength.runs, hcount]
    split
    · next h =>
      have hnext : emplaceRuns current (BitVec.ofNat 32 (k + 1)) rest = _ := ih current h.2
      rwa [BitVec.ofNat_add] at hnext
    · rw [List.map_cons]
      exact congrArg _ (ih x (by decide))

/-- The runs of a list. -/
def runsOf (xs : List (Native t)) : List (RlePair t) := (RleEncoder.encode {} xs).runs

theorem runsOf_eq (xs : List (Native t)) : runsOf xs = (RunLength.chunkRuns t xs).map pairOf := by
  cases xs with
  | nil => rfl
  | cons x rest => exact emplaceRuns_eq x (by decide) rest

theorem runsOf_eq_nil_iff {xs : List (Native t)} : runsOf xs = [] ↔ xs = [] := by
  have hne : ∀ (current : Native t) (runLength : BitVec 32) (rest : List (Native t)),
      emplaceRuns current runLength rest ≠ [] := by
    intro current runLength rest
    induction rest generalizing current runLength with
    | nil => exact List.cons_ne_nil _ _
    | cons x rest ih =>
      rw [emplaceRuns]
      split
      · exact ih current (runLength + 1)
      · exact List.cons_ne_nil _ _
  cases xs with
  | nil => exact iff_of_true rfl rfl
  | cons x rest => exact iff_of_false (hne x 1 rest) (List.cons_ne_nil x rest)

theorem runsOf_positive (xs : List (Native t)) : ∀ run ∈ runsOf xs, 0 < run.count.toNat := by
  intro run hrun
  rw [runsOf_eq] at hrun
  obtain ⟨r, hr, rfl⟩ := List.mem_map.mp hrun
  cases xs with
  | nil => cases hr
  | cons x rest =>
    obtain ⟨hpos, hle⟩ := RunLength.runs_bounded t x 1 rest (by decide) r hr
    have hcount : (pairOf r).count.toNat = r.2 := toNat_ofNat_of_lt (Nat.lt_of_le_pred (by decide) hle)
    rwa [hcount]

theorem spelled_runsOf (ht : t.isInteger = true) (xs : List (Native t)) : spelled (runsOf xs) = xs := by
  have hspelled : spelled (runsOf xs) = RunLength.expand t (RunLength.chunkRuns t xs) := by
    rw [runsOf_eq, spelled, RunLength.expand, List.flatMap_map]
    refine List.flatMap_congr fun r hr => ?_
    have hle := RunLength.chunkRuns_bounded t xs r hr
    have hcount : (pairOf r).count.toNat = r.2 := toNat_ofNat_of_lt (Nat.lt_of_le_pred (by decide) hle)
    rw [hcount]
    rfl
  rw [hspelled, RunLength.expand_chunkRuns ht]

/-! ### An encoder in use -/

/-- A list of fewer than `2^32` runs. -/
structure Input (t : DataType) where
  values : List (Native t)
  few : (runsOf values).length < 2 ^ 32

/-- An encoder and the list it was last given; a new encoder was given none. -/
structure Usage (t : DataType) where
  enc : RleEncoder t := {}
  last : List (Native t) := []

namespace Usage

def encode (u : Usage t) (x : Input t) : Usage t where
  enc := u.enc.encode x.values
  last := x.values

/-- The runs are those of the last list, as their counts and what is read back of them show. -/
def Reflects (u : Usage t) : Prop :=
  (∀ run ∈ u.enc.runs, 0 < run.count.toNat) ∧ total u.enc.runs = u.last.length ∧
    ∀ out : List (Native t), out.length = u.last.length →
      (do let enc ← RleEncoder.read u.enc.write
          RleDecoder.decode ⟨enc.runs⟩ out u.last.length) = .ok u.last

/-- An encoder that holds the runs of its last list. -/
def Current (u : Usage t) : Prop := u.enc.runs = runsOf u.last ∧ u.enc.runs.length < 2 ^ 32

/-- The list has a value, or there are no runs it would have to replace. -/
def Replaces (u : Usage t) (x : Input t) : Prop := x.values ≠ [] ∨ u.enc.runs = []

theorem encode_runs {u : Usage t} {x : Input t} (h : u.Replaces x) : (u.encode x).enc.runs = runsOf x.values := by
  obtain ⟨xs, few⟩ := x
  cases xs with
  | nil => exact h.resolve_left fun hne => hne rfl
  | cons x rest => rfl

theorem Current.encode {u : Usage t} {x : Input t} (h : u.Replaces x) : (u.encode x).Current := by
  have hruns := encode_runs h
  refine ⟨hruns, ?_⟩
  rw [hruns]
  exact x.few

theorem Current.reflects (ht : t.isInteger = true) {u : Usage t} (h : u.Current) : u.Reflects := by
  obtain ⟨hruns, hfew⟩ := h
  have hspelled := spelled_runsOf ht u.last
  have htotal : total (runsOf u.last) = u.last.length := by
    rw [← length_spelled, hspelled]
  refine ⟨by rw [hruns]; exact runsOf_positive u.last, by rw [hruns, htotal], fun out hout => ?_⟩
  rw [RleEncoder.read_write hfew, bind_ok, hruns, RleDecoder.decode_eq _ (by simp only [htotal]; omega), hspelled,
    List.take_length, overwrite, ← hout]
  simp [hout]

/-- An empty list where there are runs leaves them, and their counts do not sum to 0. -/
theorem replaces_of_reflects {u : Usage t} {x : Input t} (hpos : ∀ run ∈ u.enc.runs, 0 < run.count.toNat)
    (h : (u.encode x).Reflects) : u.Replaces x := by
  obtain ⟨xs, few⟩ := x
  cases xs with
  | cons x rest => exact .inl (List.cons_ne_nil x rest)
  | nil =>
    obtain ⟨-, htotal, -⟩ := h
    refine .inr ?_
    cases hruns : u.enc.runs with
    | nil => rfl
    | cons run rest =>
      have hrun := hpos run (by rw [hruns]; exact List.mem_cons_self)
      have hzero : total u.enc.runs = 0 := htotal
      rw [hruns, total_cons] at hzero
      omega

/-- Calls that replace what there is, as a condition on the lists alone. -/
theorem along_replaces_iff (u : Usage t) (calls : List (Input t)) :
    Along encode Replaces u calls ↔
      (u.enc.runs ≠ [] → ∀ x ∈ calls, x.values ≠ []) ∧ calls.Pairwise fun x y => x.values ≠ [] → y.values ≠ [] := by
  induction calls generalizing u with
  | nil => simp [Along]
  | cons x rest ih =>
    rw [Along, ih, List.pairwise_cons, List.forall_mem_cons]
    constructor
    · intro h
      obtain ⟨hfirst, hlater, hpairs⟩ := h
      rw [encode_runs hfirst, Ne, runsOf_eq_nil_iff] at hlater
      exact ⟨fun hruns => ⟨hfirst.resolve_right hruns, hlater (hfirst.resolve_right hruns)⟩,
        fun y hy hx => hlater hx y hy, hpairs⟩
    · intro h
      obtain ⟨hall, hlater, hpairs⟩ := h
      have hfirst : u.Replaces x := by
        by_cases hruns : u.enc.runs = []
        · exact .inr hruns
        · exact .inl (hall hruns).1
      rw [encode_runs hfirst, Ne, runsOf_eq_nil_iff]
      exact ⟨hfirst, fun hx y hy => hlater y hy hx, hpairs⟩

end Usage

/-- **In a run of `Encode` calls the encoder reflects its last list throughout just when no empty list
comes after one that is not.** -/
theorem encoder_reflects_iff (ht : t.isInteger = true) (calls : List (Input t)) :
    Throughout Usage.encode Usage.Reflects {} calls ↔
      calls.Pairwise fun x y => x.values ≠ [] → y.values ≠ [] := by
  have hnew : ({} : Usage t).Current := ⟨rfl, Nat.two_pow_pos 32⟩
  have hrun : Throughout Usage.encode Usage.Reflects {} calls ↔ Along Usage.encode Usage.Replaces {} calls :=
    throughout_iff_along Usage.Current (fun u h => h.reflects ht) (fun u x _ h => Usage.Current.encode h)
      (fun u x h h' => Usage.replaces_of_reflects (h.reflects ht).1 h') hnew calls
  rw [hrun, Usage.along_replaces_iff]
  exact and_iff_right fun h => absurd rfl h

/-- Two lists, of two runs and of one. -/
theorem twoLists_reflect_iff :
    Throughout Usage.encode Usage.Reflects {} [(⟨[5, 5, 7], by decide⟩ : Input .int32), ⟨[9], by decide⟩] ↔
      [(⟨[5, 5, 7], by decide⟩ : Input .int32), ⟨[9], by decide⟩].Pairwise fun x y => x.values ≠ [] → y.values ≠ [] :=
  encoder_reflects_iff rfl _

/-- A five, and then nothing: the run of the five is still there. -/
theorem emptied_not_reflects :
    ¬ ∀ calls : List (Input .int32), Throughout Usage.encode Usage.Reflects {} calls := by
  intro h
  obtain ⟨-, -, hlast⟩ := h [⟨[5], by decide⟩, ⟨[], by decide⟩]
  have htotal := hlast.2.1
  revert htotal
  decide

end ColumnarStore.Standalone.Rle
