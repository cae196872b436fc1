import ColumnarStore.Encoding.Plain

/-! The run-length codec.

A run is stored as its value and a length in 32 bits, so that a run longer than
`UINT32_MAX` is cut. The decoder writes what the pairs spell and leaves the values
past their total as they were. -/
namespace ColumnarStore.Encoding.RunLength
open Foundation
variable (t : DataType)

def uint32Max : Nat := 2 ^ 32 - 1

/-! ### Encoding -/

/-- The runs of the source from `current` on, of which `runLength` values are read. -/
def runs (current : Native t) (runLength : Nat) : List (Native t) → List (Native t × Nat)
  | [] => [(current, runLength)]
  | x :: rest =>
    if Native.eq t x current ∧ runLength < uint32Max then runs current (runLength + 1) rest
    else (current, runLength) :: runs x 1 rest

def storePair (run : Native t × Nat) : List UInt8 :=
  storeWord t.typeSize run.1 ++ storeWord 4 (BitVec.ofNat 32 run.2)

def encode : List (Native t) → Outcome (List UInt8)
  | [] => .ok []
  | x :: rest => .ok ((runs t x 1 rest).flatMap (storePair t))

/-! ### Decoding -/

/-- `pairs` is how often the loop can still read a pair before the end of the buffer. -/
def fillRuns : Nat → List UInt8 → List (Native t) → Outcome (List (Native t))
  | 0, _, dst => .ok dst
  | pairs + 1, src, dst =>
    if dst.length = 0 then .ok []
    else do
      let value ← orFault .outOfBounds (loadWord t.typeSize src)
      let runLength ← orFault .outOfBounds (loadWord 4 (src.drop t.typeSize))
      let toWrite := Min.min runLength.toNat dst.length
      let rest ← fillRuns pairs (src.drop (t.typeSize + 4)) (dst.drop toWrite)
      return List.replicate toWrite value ++ rest

def decode (data : List UInt8) (dst : List (Native t)) : Outcome (List (Native t)) :=
  fillRuns t (data.length / (t.typeSize + 4)) data dst

/-! ### What the pairs spell -/

def expand (rs : List (Native t × Nat)) : List (Native t) := rs.flatMap fun r => List.replicate r.2 r.1

/-- How often the value changes from one position to the next. -/
def changes (current : Native t) : List (Native t) → Nat
  | [] => 0
  | x :: rest => (if x = current then 0 else 1) + changes x rest

@[simp] theorem length_storePair (r : Native t × Nat) :
    (storePair t r).length = t.typeSize + 4 := by simp [storePair]

theorem length_storePairs (rs : List (Native t × Nat)) :
    (rs.flatMap (storePair t)).length = (t.typeSize + 4) * rs.length := by
  induction rs with
  | nil => rfl
  | cons r rest ih =>
    rw [List.flatMap_cons, List.length_append, length_storePair, ih, List.length_cons, Nat.mul_succ,
      Nat.add_comm]

section Integers
variable {t : DataType} (ht : t.isInteger = true)
include ht

theorem expand_runs (current : Native t) (k : Nat) (rest : List (Native t)) :
    expand t (runs t current k rest) = List.replicate k current ++ rest := by
  induction rest generalizing current k with
  | nil => simp [runs, expand]
  | cons x rest ih =>
    rw [runs]
    split
    · next h =>
      have hx : x = current := by simpa [Native.eq_int ht] using h.1
      rw [ih, hx, List.replicate_succ', List.append_assoc]
      rfl
    · have htail := ih x 1
      simp only [expand, List.flatMap_cons] at htail ⊢
      rw [htail]
      rfl

/-- As long as no run is cut, there is one pair more than there are changes. -/
theorem length_runs (current : Native t) (k : Nat) (rest : List (Native t))
    (h : k + rest.length < 2 ^ 32) : (runs t current k rest).length = 1 + changes t current rest := by
  induction rest generalizing current k with
  | nil => rfl
  | cons x rest ih =>
    rw [List.length_cons] at h
    rw [runs, changes]
    by_cases hx : x = current
    · have hrun : Native.eq t x current = true ∧ k < uint32Max := by
        refine ⟨by simpa [Native.eq_int ht] using hx, ?_⟩
        show k < 2 ^ 32 - 1
        omega
      rw [if_pos hrun, if_pos hx, ih current (k + 1) (by omega), hx]
      omega
    · have hrun : ¬ (Native.eq t x current = true ∧ k < uint32Max) := by
        simp [Native.eq_int ht, hx]
      rw [if_neg hrun, if_neg hx, List.length_cons, ih x 1 (by omega)]
      omega

end Integers

/-- There are no more pairs than values. -/
theorem length_runs_le (current : Native t) (k : Nat) (rest : List (Native t)) :
    (runs t current k rest).length ≤ 1 + rest.length := by
  induction rest generalizing current k with
  | nil => exact Nat.le_refl 1
  | cons x rest ih =>
    rw [runs, List.length_cons]
    split
    · exact (ih current (k + 1)).trans (by omega)
    · rw [List.length_cons]
      have hrest := ih x 1
      omega

/-- Every stored length is that of a run that fits its 32 bits. -/
theorem runs_bounded (current : Native t) (k : Nat) (rest : List (Native t))
    (hk : 0 < k ∧ k ≤ uint32Max) : ∀ r ∈ runs t current k rest, 0 < r.2 ∧ r.2 ≤ uint32Max := by
  induction rest generalizing current k with
  | nil =>
    intro r hr
    rw [runs, List.mem_singleton] at hr
    rw [hr]
    exact hk
  | cons x rest ih =>
    rw [runs]
    split
    · next h => exact ih current (k + 1) ⟨Nat.succ_pos k, h.2⟩
    · intro r hr
      rcases List.mem_cons.mp hr with rfl | hr
      · exact hk
      · exact ih x 1 (by decide) r hr

/-- The decoder's loop over stored pairs writes what they spell. -/
theorem fillRuns_storePairs (rs : List (Native t × Nat)) (dst : List (Native t))
    (hbound : ∀ r ∈ rs, r.2 ≤ uint32Max) (hdst : dst.length = (expand t rs).length) :
    fillRuns t rs.length (rs.flatMap (storePair t)) dst = .ok (expand t rs) := by
  induction rs generalizing dst with
  | nil =>
    cases List.length_eq_zero_iff.mp hdst
    rfl
  | cons r rest ih =>
    rw [List.length_cons, fillRuns]
    by_cases hempty : dst.length = 0
    · rw [if_pos hempty]
      rw [hempty, eq_comm, List.length_eq_zero_iff] at hdst
      rw [hdst]
    · rw [if_neg hempty]
      have hlen : dst.length = r.2 + (expand t rest).length := by
        rw [hdst]
        simp [expand]
      have hcount : (BitVec.ofNat 32 r.2).toNat = r.2 := by
        have hr : r.2 ≤ 2 ^ 32 - 1 := hbound r (by simp)
        exact toNat_ofNat_of_lt (by omega)
      have hvalue : loadWord t.typeSize ((r :: rest).flatMap (storePair t)) = some r.1 := by
        rw [List.flatMap_cons, storePair, List.append_assoc, loadWord_storeWord]
      have hlength : loadWord 4 (((r :: rest).flatMap (storePair t)).drop t.typeSize) =
          some (BitVec.ofNat 32 r.2) := by
        rw [List.flatMap_cons, storePair, List.append_assoc,
          List.drop_left' (length_storeWord t.typeSize r.1), loadWord_storeWord]
      have hdrop : ((r :: rest).flatMap (storePair t)).drop (t.typeSize + 4) =
          rest.flatMap (storePair t) := List.drop_left' (length_storePair t r)
      have hmin : Min.min r.2 dst.length = r.2 := by omega
      have hrest := ih (dst.drop r.2) (fun r hr => hbound r (List.mem_cons_of_mem _ hr)) (by
        rw [List.length_drop, hlen]
        omega)
      simp only [hvalue, hlength, orFault_some, bind_ok, hcount, hmin, hdrop, hrest, pure_eq_ok]
      rfl

/-- A buffer of stored pairs is decoded to what they spell. -/
theorem decode_storePairs (rs : List (Native t × Nat)) {dst : List (Native t)}
    (hbound : ∀ r ∈ rs, r.2 ≤ uint32Max) (hdst : dst.length = (expand t rs).length) :
    decode t (rs.flatMap (storePair t)) dst = .ok (expand t rs) := by
  have hpairs : (rs.flatMap (storePair t)).length / (t.typeSize + 4) = rs.length := by
    rw [length_storePairs, Nat.mul_div_cancel_left _ (by omega)]
  rw [decode, hpairs, fillRuns_storePairs t rs dst hbound hdst]

/-! ### Chunks -/

/-- The runs of a chunk. -/
def chunkRuns : List (Native t) → List (Native t × Nat)
  | [] => []
  | x :: rest => runs t x 1 rest

/-- Every chunk in turn, into one buffer. -/
def encodeChunks (chunks : List (List (Native t))) : Outcome (List UInt8) :=
  chunks.foldlM (fun out chunk => do
    let bytes ← encode t chunk
    return out ++ bytes) []

theorem encode_eq (chunk : List (Native t)) :
    encode t chunk = .ok ((chunkRuns t chunk).flatMap (storePair t)) := by
  cases chunk with
  | nil => rfl
  | cons x rest => rfl

/-- The buffer holds the runs of all chunks; those on both sides of a boundary stay apart. -/
theorem encodeChunks_eq (chunks : List (List (Native t))) :
    encodeChunks t chunks = .ok ((chunks.flatMap (chunkRuns t)).flatMap (storePair t)) := by
  have hloop : ∀ out : List UInt8, (chunks.foldlM (fun out chunk => do
      let bytes ← encode t chunk
      return out ++ bytes) out : Outcome (List UInt8)) =
        .ok (out ++ (chunks.flatMap (chunkRuns t)).flatMap (storePair t)) := by
    induction chunks with
    | nil =>
      intro out
      rw [List.flatMap_nil, List.flatMap_nil, List.append_nil]
      rfl
    | cons chunk rest ih =>
      intro out
      rw [List.foldlM_cons, encode_eq, bind_ok, pure_eq_ok, bind_ok, ih, List.flatMap_cons,
        List.flatMap_append, List.append_assoc]
  exact hloop []

theorem chunkRuns_bounded (chunk : List (Native t)) : ∀ r ∈ chunkRuns t chunk, r.2 ≤ uint32Max := by
  intro r hr
  cases chunk with
  | nil => cases hr
  | cons x rest => exact (runs_bounded t x 1 rest (by decide) r hr).2

section Integers
variable {t : DataType} (ht : t.isInteger = true)
include ht

theorem expand_chunkRuns (chunk : List (Native t)) : expand t (chunkRuns t chunk) = chunk := by
  cases chunk with
  | nil => rfl
  | cons x rest => exact expand_runs ht x 1 rest

theorem expand_chunks (chunks : List (List (Native t))) :
    expand t (chunks.flatMap (chunkRuns t)) = chunks.flatten := by
  induction chunks with
  | nil => rfl
  | cons chunk rest ih =>
    have hfirst := expand_chunkRuns ht chunk
    unfold expand at hfirst ih ⊢
    rw [List.flatMap_cons, List.flatMap_append, hfirst, ih, List.flatten_cons]

theorem decode_encode {src dst : List (Native t)} {bytes : List UInt8} (h : encode t src = .ok bytes)
    (hdst : dst.length = src.length) : decode t bytes dst = .ok src := by
  have hexpand := expand_chunkRuns ht src
  rw [encode_eq] at h
  cases h
  rw [decode_storePairs t (chunkRuns t src) (chunkRuns_bounded t src) (by rw [hexpand, hdst]), hexpand]

/-- **Chunks encoded one after another into one buffer decode to their concatenation.** -/
theorem chunks_roundTrip (chunks : List (List (Native t))) :
    ∃ bytes, encodeChunks t chunks = .ok bytes ∧
      ∀ dst : List (Native t), dst.length = chunks.flatten.length →
        decode t bytes dst = .ok chunks.flatten := by
  refine ⟨_, encodeChunks_eq t chunks, fun dst hdst => ?_⟩
  have hexpand := expand_chunks ht chunks
  have hbound : ∀ r ∈ chunks.flatMap (chunkRuns t), r.2 ≤ uint32Max := by
    intro r hr
    obtain ⟨chunk, -, hr⟩ := List.mem_flatMap.mp hr
    exact chunkRuns_bounded t chunk r hr
  rw [decode_storePairs t _ hbound (by rw [hexpand, hdst]), hexpand]

end Integers

theorem chunks_roundTrip_int32 :
    ∃ bytes, encodeChunks .int32 [[7, 7], [], [7, 1]] = .ok bytes ∧
      ∀ dst : List (Native .int32), dst.length = 4 → decode .int32 bytes dst = .ok [7, 7, 7, 1] :=
  chunks_roundTrip (t := .int32) rfl [[7, 7], [], [7, 1]]

end ColumnarStore.Encoding.RunLength
