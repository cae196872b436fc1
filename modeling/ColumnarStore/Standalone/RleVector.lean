import ColumnarStore.Foundation.Blocks
import ColumnarStore.Foundation.Lanes
import ColumnarStore.Scanner.VectorFilter
import ColumnarStore.Standalone.Rle

/-! The vector decoders of the standalone run-length codec.

They go over the runs as the scalar decoder does and cut them off at the same place. What
is left of a run is written in registers that hold its value in every lane, as many as fit
it, and the rest value after value; so a run is written as one fill would write it, and no
register reaches into the next run or past the end. -/
namespace ColumnarStore.Standalone.Rle
open Foundation Foundation.Blocks Scanner
open Encoding.RunLength (overwrite getElem?_overwrite_of_lt getElem?_overwrite_of_le)
variable {t : DataType}

/-! ### The decoders -/

/-- `storeu(out + pos, v)` -/
def storeu {n : Nat} (out : List (Native t)) (pos : Nat) (v : Lanes n (8 * t.typeSize)) : Outcome (List (Native t)) :=
  if pos + n ≤ out.length then .ok (out.take pos ++ List.ofFn v ++ out.drop (pos + n)) else .error .outOfBounds

/-- One run, with registers of `n` lanes. -/
def storeLanes (n : Nat) (out : List (Native t)) (outPos toWrite : Nat) (value : Native t) :
    Outcome (List (Native t)) := do
  let v : Lanes n (8 * t.typeSize) := Lanes.set1 value
  -- `to_write & ~(n - 1)`; `n` is 8 or 16.
  let simdWrites := toWrite - toWrite % n
  let out ← (List.range (simdWrites / n)).foldlM (fun out k => storeu out (outPos + k * n) v) out
  (List.range' simdWrites (toWrite - simdWrites)).foldlM (fun out j => fill out (outPos + j) 1 value) out

namespace RleDecoder

/-- For integers; `set1` would convert a `float` on its way into the register. -/
def decodeAvx512 (build : Build) (d : RleDecoder t) (out : List (Native t)) (count : Nat) : Outcome (List (Native t)) :=
  match build with
  | .scalar => d.decode out count
  | .avx512 =>
    if t.typeSize = 4 then forRuns (storeLanes 16) count d.runs 0 out
    else if t.typeSize = 8 then forRuns (storeLanes 8) count d.runs 0 out
    else .ok out

/-- For integers, likewise. -/
def decodeAvx2 (d : RleDecoder t) (out : List (Native t)) (count : Nat) : Outcome (List (Native t)) :=
  if t.typeSize = 4 then forRuns (storeLanes 8) count d.runs 0 out else d.decode out count

end RleDecoder

/-! ### One run -/

section Fill
variable {α : Type}

theorem length_fill {out out' : List α} {pos n : Nat} {x : α} (h : fill out pos n x = .ok out') :
    out'.length = out.length ∧ pos + n ≤ out.length := by
  unfold fill at h
  split at h
  · next hroom =>
    cases h
    simp only [List.length_append, List.length_take, List.length_replicate, List.length_drop]
    omega
  · cases h

theorem fill_of_lt {out : List α} {pos n : Nat} (h : out.length < pos + n) (x : α) :
    fill out pos n x = .error .outOfBounds := by
  rw [fill, if_neg (Nat.not_le.mpr h)]

theorem fill_zero {out : List α} {pos : Nat} (h : pos ≤ out.length) (x : α) : fill out pos 0 x = .ok out := by
  have hnone := fill_append (out.take pos) (Nat.zero_le (out.drop pos).length) x
  rw [List.length_take, Nat.min_eq_left h, List.take_append_drop] at hnone
  simpa using hnone

/-- One value more. -/
theorem fill_succ (out : List α) (pos n : Nat) (x : α) :
    fill out pos (n + 1) x = fill out pos n x >>= fun out => fill out (pos + n) 1 x := by
  by_cases hroom : pos + n ≤ out.length
  · obtain ⟨before, rest, rfl, rfl⟩ : ∃ before rest, out = before ++ rest ∧ before.length = pos :=
      ⟨out.take pos, out.drop pos, (List.take_append_drop pos out).symm, List.length_take_of_le (by omega)⟩
    rw [List.length_append, Nat.add_le_add_iff_left] at hroom
    rw [fill_append before hroom, bind_ok]
    have hlen : (before ++ List.replicate n x).length = before.length + n := by
      rw [List.length_append, List.length_replicate]
    by_cases hnext : n + 1 ≤ rest.length
    · have hone : 1 ≤ (rest.drop n).length := by
        rw [List.length_drop]
        omega
      have hlast := fill_append (before ++ List.replicate n x) hone x
      rw [hlen] at hlast
      rw [fill_append before hnext, hlast, List.replicate_succ', List.drop_drop, List.replicate_one,
        ← List.append_assoc before]
    · have hshort : (before ++ List.replicate n x ++ rest.drop n).length = before.length + rest.length := by
        rw [List.length_append, hlen, List.length_drop]
        omega
      rw [fill_of_lt (by rw [List.length_append]; omega), fill_of_lt (by omega)]
  · rw [fill_of_lt (by omega), fill_of_lt (by omega)]
    rfl

/-- A fill is a loop over its positions. -/
theorem fill_eq_foldlM {out : List α} {pos : Nat} (h : pos ≤ out.length) (n : Nat) (x : α) :
    fill out pos n x = (List.range n).foldlM (fun out j => fill out (pos + j) 1 x) out := by
  induction n with
  | zero => exact fill_zero h x
  | succ n ih =>
    rw [fill_succ, ih, List.range_succ, List.foldlM_append]
    congr 1
    funext out
    exact (bind_pure _).symm

/-- A loop over at least one position needs no room to start in. -/
theorem fill_eq_foldlM_of_pos {n : Nat} (hn : 0 < n) (out : List α) (pos : Nat) (x : α) :
    fill out pos n x = (List.range n).foldlM (fun out j => fill out (pos + j) 1 x) out := by
  by_cases h : pos ≤ out.length
  · exact fill_eq_foldlM h n x
  · obtain ⟨n, rfl⟩ := Nat.exists_eq_succ_of_ne_zero hn.ne'
    rw [List.range_succ_eq_map, List.foldlM_cons, fill_of_lt (by omega), fill_of_lt (by omega)]
    rfl

end Fill

theorem storeu_set1 {n : Nat} (out : List (Native t)) (pos : Nat) (value : Native t) :
    storeu out pos (Lanes.set1 (n := n) value) = fill out pos n value := by
  have hlanes : List.ofFn (Lanes.set1 (n := n) value) = List.replicate n value := List.ofFn_const n value
  rw [storeu, fill, hlanes]

/-- Full registers and what they leave tile a run. -/
theorem storeLanes_eq {n : Nat} (hn : 0 < n) {out : List (Native t)} {outPos : Nat} (h : outPos ≤ out.length)
    (toWrite : Nat) (value : Native t) : storeLanes n out outPos toWrite value = fill out outPos toWrite value := by
  have hfull : (toWrite - toWrite % n) / n = toWrite / n := by
    conv_lhs => rw [← Nat.div_add_mod toWrite n]
    rw [Nat.mul_add_mod, Nat.mod_mod, Nat.add_sub_cancel, Nat.mul_div_cancel_left _ hn]
  have hrest : toWrite - (toWrite - toWrite % n) = toWrite % n := by
    have := Nat.mod_le toWrite n
    omega
  have hregister : ∀ (out : List (Native t)) (k : Nat), storeu out (outPos + k * n) (Lanes.set1 (n := n) value) =
      (List.range n).foldlM (fun out j => fill out (outPos + (k * n + j)) 1 value) out := by
    intro out k
    rw [storeu_set1, fill_eq_foldlM_of_pos hn]
    simp only [Nat.add_assoc]
  rw [fill_eq_foldlM h, storeLanes, hfull, hrest]
  simp only [hregister]
  exact foldlM_blocks n toWrite (fun out j => fill out (outPos + j) 1 value) out

/-- A loop that writes runs inside the buffer as a fill would is the loop that fills. -/
theorem forRuns_congr {put : List (Native t) → Nat → Nat → Native t → Outcome (List (Native t))}
    (hput : ∀ out outPos toWrite value, outPos ≤ out.length →
      put out outPos toWrite value = fill out outPos toWrite value)
    (count : Nat) (runs : List (RlePair t)) {outPos : Nat} {out : List (Native t)} (h : outPos ≤ out.length) :
    forRuns put count runs outPos out =
      forRuns (fun out outPos toWrite value => fill out outPos toWrite value) count runs outPos out := by
  induction runs generalizing outPos out with
  | nil => rfl
  | cons run rest ih =>
    rw [forRuns, forRuns]
    split
    · dsimp only
      rw [hput _ _ _ _ h]
      cases hfill : fill out outPos (Min.min run.count.toNat (count - outPos)) run.value with
      | error e => rfl
      | ok out' =>
        obtain ⟨hlen, hroom⟩ := length_fill hfill
        exact ih (by omega)
    · rfl

namespace RleDecoder
variable (d : RleDecoder t) (out : List (Native t)) (count : Nat)

theorem forRuns_storeLanes {n : Nat} (hn : 0 < n) : forRuns (storeLanes n) count d.runs 0 out = d.decode out count :=
  forRuns_congr (fun _ _ toWrite value h => storeLanes_eq hn h toWrite value) count d.runs (Nat.zero_le _)

theorem decodeAvx2_eq : d.decodeAvx2 out count = d.decode out count := by
  unfold decodeAvx2
  split
  · exact forRuns_storeLanes d out count (by decide)
  · rfl

theorem decodeAvx512_eq (ht : t.isInteger = true) (build : Build) :
    d.decodeAvx512 build out count = d.decode out count := by
  cases build with
  | scalar => rfl
  | avx512 =>
    unfold decodeAvx512
    rcases DataType.typeSize_of_isInteger ht with hsize | hsize
    · simp only [hsize, if_true]
      exact forRuns_storeLanes d out count (by decide)
    · simp only [hsize, if_true]
      exact forRuns_storeLanes d out count (by decide)

/-- **The vector decoders write what the scalar decoder writes: the values the runs spell, and nothing
from `count` or the end of the runs on.** -/
theorem decodeVector_agrees (ht : t.isInteger = true) (build : Build) :
    d.decodeAvx2 out count = d.decode out count ∧ d.decodeAvx512 build out count = d.decode out count ∧
      (Min.min count (total d.runs) ≤ out.length → ∃ values, d.decode out count = .ok values ∧
        (∀ i < Min.min count (total d.runs), values[i]? = (spelled d.runs)[i]?) ∧
        ∀ i, Min.min count (total d.runs) ≤ i → values[i]? = out[i]?) := by
  refine ⟨d.decodeAvx2_eq out count, d.decodeAvx512_eq out count ht build, fun h => ?_⟩
  have hnew : ((spelled d.runs).take count).length = Min.min count (total d.runs) := by
    rw [List.length_take, length_spelled]
  refine ⟨_, d.decode_eq h, fun i hi => ?_, fun i hi => ?_⟩
  · rw [getElem?_overwrite_of_lt (by rwa [hnew]) (by omega), List.getElem?_take_of_lt (by omega)]
  · exact getElem?_overwrite_of_le (by rwa [hnew])

/-- A run of 19 and one that is cut off, up to the end of the buffer. -/
theorem twentyOne_agree :
    (⟨[⟨7, 19⟩, ⟨4, 0⟩, ⟨5, 40⟩]⟩ : RleDecoder .int32).decodeAvx2 (List.replicate 21 0) 21 =
        (⟨[⟨7, 19⟩, ⟨4, 0⟩, ⟨5, 40⟩]⟩ : RleDecoder .int32).decode (List.replicate 21 0) 21 ∧
      (⟨[⟨7, 19⟩, ⟨4, 0⟩, ⟨5, 40⟩]⟩ : RleDecoder .int32).decodeAvx512 .avx512 (List.replicate 21 0) 21 =
        (⟨[⟨7, 19⟩, ⟨4, 0⟩, ⟨5, 40⟩]⟩ : RleDecoder .int32).decode (List.replicate 21 0) 21 ∧
      (21 ≤ 21 → ∃ values, (⟨[⟨7, 19⟩, ⟨4, 0⟩, ⟨5, 40⟩]⟩ : RleDecoder .int32).decode (List.replicate 21 0) 21 =
          .ok values ∧
        (∀ i < 21, values[i]? = (spelled [⟨7, 19⟩, ⟨4, 0⟩, ⟨5, 40⟩])[i]?) ∧
        ∀ i, 21 ≤ i → values[i]? = (List.replicate 21 (0 : Native .int32))[i]?) :=
  decodeVector_agrees (⟨[⟨7, 19⟩, ⟨4, 0⟩, ⟨5, 40⟩]⟩ : RleDecoder .int32) (List.replicate 21 0) 21 rfl .avx512

end RleDecoder

end ColumnarStore.Standalone.Rle
