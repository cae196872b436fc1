import ColumnarStore.Encoding.RunLength

/-! What the run-length decoder makes of any bytes.

The decoder checks nothing but that a record is whole and that there is room left, so
its input need not come from an encoder: runs may be empty or longer than the room,
and the last record may be cut off. `decodeLoop` is the loop with its two offsets.
Every turn takes one record, empty or not, so the loop ends after the last whole one. -/
namespace ColumnarStore.Encoding.RunLength
open Foundation
variable (t : DataType)

/-! ### The loop -/

/-- `std::fill_n(dst + offset, n, value)`. -/
def fillN (dst : List (Native t)) (offset n : Nat) (value : Native t) : Outcome (List (Native t)) :=
  if offset + n ≤ dst.length then .ok (dst.take offset ++ List.replicate n value ++ dst.drop (offset + n))
  else .error .outOfBounds

/-- `Decode` from the test of its condition on, for at most `fuel` tests. -/
def decodeLoop (data : List UInt8) (count : Nat) :
    Nat → Nat → Nat → List (Native t) → Outcome (List (Native t))
  | 0, _, _, _ => .error .diverges
  | fuel + 1, srcOffset, dstOffset, dst =>
    if dstOffset < count ∧ srcOffset + t.typeSize + 4 ≤ data.length then do
      let value ← orFault .outOfBounds (loadWord t.typeSize (data.drop srcOffset))
      let runLength ← orFault .outOfBounds (loadWord 4 (data.drop (srcOffset + t.typeSize)))
      let toWrite := Min.min runLength.toNat (count - dstOffset)
      let dst ← fillN t dst dstOffset toWrite value
      decodeLoop data count fuel (srcOffset + t.typeSize + 4) (dstOffset + toWrite) dst
    else .ok dst

/-! ### Records -/

/-- The record at the head of a memory: a value and a run length. -/
def recordAt (memory : List UInt8) : Native t × Nat :=
  (BitVec.ofNat _ (leValue (memory.take t.typeSize)), leValue ((memory.drop t.typeSize).take 4))

/-- The first `pairs` records of a memory. -/
def takeRecords : Nat → List UInt8 → List (Native t × Nat)
  | 0, _ => []
  | pairs + 1, memory => recordAt t memory :: takeRecords pairs (memory.drop (t.typeSize + 4))

/-- The whole records of the input; what is left at its end is shorter than one. -/
def records (data : List UInt8) : List (Native t × Nat) :=
  takeRecords t (data.length / (t.typeSize + 4)) data

theorem length_expand (rs : List (Native t × Nat)) : (expand t rs).length = (rs.map Prod.snd).sum := by
  rw [expand, List.length_flatMap]
  simp only [List.length_replicate]

variable {t}

theorem load_record {memory : List UInt8} (h : t.typeSize + 4 ≤ memory.length) :
    loadWord t.typeSize memory = some (recordAt t memory).1 ∧
      ∃ runLength, loadWord 4 (memory.drop t.typeSize) = some runLength ∧
        runLength.toNat = (recordAt t memory).2 := by
  have hlen : 4 ≤ (memory.drop t.typeSize).length := by
    rw [List.length_drop]
    omega
  refine ⟨if_pos (by omega), _, if_pos hlen, toNat_ofNat_of_lt ?_⟩
  have hlt := leValue_lt ((memory.drop t.typeSize).take 4)
  rwa [List.length_take, Nat.min_eq_left hlen] at hlt

/-! ### The structural decoder -/

section Overwriting
variable {α : Type*}

/-- `new` over the head of `dst`, as much of it as there is room for. -/
def overwrite (new dst : List α) : List α := new.take dst.length ++ dst.drop new.length

theorem overwrite_append (first new dst : List α) :
    overwrite (first ++ new) dst = first.take dst.length ++ overwrite new (dst.drop first.length) := by
  rw [overwrite, overwrite, List.take_append, List.length_append, List.length_drop, List.drop_drop,
    List.append_assoc]

theorem getElem?_overwrite_of_lt {new dst : List α} {i : Nat} (h : i < new.length) (h' : i < dst.length) :
    (overwrite new dst)[i]? = new[i]? := by
  have htake : i < (new.take dst.length).length := by
    rw [List.length_take]
    omega
  rw [overwrite, List.getElem?_append_left htake, List.getElem?_take_of_lt h']

theorem getElem?_overwrite_of_le {new dst : List α} {i : Nat} (h : new.length ≤ i) :
    (overwrite new dst)[i]? = dst[i]? := by
  have htake : (new.take dst.length).length ≤ i := by
    rw [List.length_take]
    omega
  rw [overwrite, List.getElem?_append_right htake, List.getElem?_drop, List.length_take]
  rcases le_total new.length dst.length with hle | hle
  · congr 1
    omega
  · rw [List.getElem?_eq_none (by omega), List.getElem?_eq_none (by omega)]

theorem drop_min_length (n : Nat) (dst : List α) : dst.drop (Min.min n dst.length) = dst.drop n := by
  rcases le_total n dst.length with h | h
  · rw [Nat.min_eq_left h]
  · rw [Nat.min_eq_right h, List.drop_length, List.drop_eq_nil_of_le h]

end Overwriting

/-- As many records as the structural decoder can still read overwrite its array. -/
theorem fillRuns_records {pairs : Nat} {memory : List UInt8} (h : (t.typeSize + 4) * pairs ≤ memory.length)
    (dst : List (Native t)) :
    fillRuns t pairs memory dst = .ok (overwrite (expand t (takeRecords t pairs memory)) dst) := by
  induction pairs generalizing memory dst with
  | zero =>
    rw [fillRuns, takeRecords]
    simp [expand, overwrite]
  | succ pairs ih =>
    rw [fillRuns]
    split
    · next hempty =>
      rw [List.length_eq_zero_iff.mp hempty]
      simp [overwrite]
    · rw [Nat.mul_succ] at h
      have hrecord : t.typeSize + 4 ≤ memory.length := (Nat.le_add_left _ _).trans h
      obtain ⟨hvalue, runLength, hlength, hcount⟩ := load_record hrecord
      have hrest : (t.typeSize + 4) * pairs ≤ (memory.drop (t.typeSize + 4)).length := by
        rw [List.length_drop]
        omega
      have hexpand : expand t (takeRecords t (pairs + 1) memory) =
          List.replicate (recordAt t memory).2 (recordAt t memory).1 ++
            expand t (takeRecords t pairs (memory.drop (t.typeSize + 4))) := rfl
      simp only [hvalue, hlength, orFault_some, bind_ok, ih hrest, pure_eq_ok, hcount, drop_min_length]
      rw [hexpand, overwrite_append, List.take_replicate, List.length_replicate, Nat.min_comm]

theorem fillRuns_nil (pairs : Nat) (memory : List UInt8) : fillRuns t pairs memory [] = .ok [] := by
  cases pairs with
  | zero => rfl
  | succ pairs => rfl

theorem decode_eq_overwrite (data : List UInt8) (dst : List (Native t)) :
    decode t data dst = .ok (overwrite (expand t (records t data)) dst) :=
  fillRuns_records (Nat.mul_div_le _ _) dst

/-! ### The loop and the structural decoder -/

/-- A fill within the array replaces what it covers and nothing else. -/
theorem fillN_spec {dst : List (Native t)} {offset n : Nat} (h : offset + n ≤ dst.length) (value : Native t) :
    ∃ dst', fillN t dst offset n value = .ok dst' ∧ dst'.length = dst.length ∧
      dst'.take (offset + n) = dst.take offset ++ List.replicate n value ∧
      ∀ m, offset + n ≤ m → dst'.drop m = dst.drop m := by
  have hfront : (dst.take offset ++ List.replicate n value).length = offset + n := by
    rw [List.length_append, List.length_take, List.length_replicate]
    omega
  refine ⟨_, if_pos h, ?_, List.take_left' hfront, fun m hm => ?_⟩
  · rw [List.length_append, hfront, List.length_drop]
    omega
  · rw [List.drop_append, hfront, List.drop_eq_nil_of_le (by omega), List.drop_drop, List.nil_append]
    congr 1
    omega

/-- A turn of the loop fills the run that a turn of the structural decoder puts first. -/
theorem decodeLoop_eq_fillRuns (data : List UInt8) {count fuel k dstOffset : Nat} {dst : List (Native t)}
    (hcount : count ≤ dst.length) (hoffset : dstOffset ≤ count)
    (hfuel : data.length / (t.typeSize + 4) - k < fuel) :
    decodeLoop t data count fuel ((t.typeSize + 4) * k) dstOffset dst =
      (fillRuns t (data.length / (t.typeSize + 4) - k) (data.drop ((t.typeSize + 4) * k))
        ((dst.drop dstOffset).take (count - dstOffset))) >>= fun filled =>
          .ok (dst.take dstOffset ++ filled ++ dst.drop count) := by
  induction fuel generalizing k dstOffset dst with
  | zero => omega
  | succ fuel ih =>
    have hwhole : (t.typeSize + 4) * k + t.typeSize + 4 ≤ data.length ↔
        k < data.length / (t.typeSize + 4) := by
      rw [Nat.add_assoc, ← Nat.mul_succ, Nat.mul_comm, ← Nat.le_div_iff_mul_le (by omega), Nat.succ_le_iff]
    have hroom : ((dst.drop dstOffset).take (count - dstOffset)).length = count - dstOffset := by
      rw [List.length_take, List.length_drop]
      omega
    rw [decodeLoop]
    by_cases hturn : dstOffset < count ∧ k < data.length / (t.typeSize + 4)
    · obtain ⟨hlt, hk⟩ := hturn
      have hpairs : data.length / (t.typeSize + 4) - k = data.length / (t.typeSize + 4) - (k + 1) + 1 := by
        omega
      have hlen : t.typeSize + 4 ≤ (data.drop ((t.typeSize + 4) * k)).length := by
        have := hwhole.mpr hk
        rw [List.length_drop]
        omega
      obtain ⟨hvalue, runLength, hlength, -⟩ := load_record hlen
      have hfit : dstOffset + Min.min runLength.toNat (count - dstOffset) ≤ count := by omega
      rw [if_pos ⟨hlt, hwhole.mpr hk⟩, hpairs, fillRuns, if_neg (by omega), hvalue, hlength, hroom]
      rw [List.drop_drop] at hlength
      rw [hlength]
      simp only [orFault_some, bind_ok]
      generalize Min.min runLength.toNat (count - dstOffset) = toWrite at hfit
      obtain ⟨dst', hfill, hlen', htake, hdrop⟩ :=
        fillN_spec (hfit.trans hcount) (recordAt t (data.drop ((t.typeSize + 4) * k))).1
      have hnext : (t.typeSize + 4) * k + t.typeSize + 4 = (t.typeSize + 4) * (k + 1) := by
        rw [Nat.mul_succ, Nat.add_assoc]
      rw [hfill, bind_ok, hnext, ih (by omega) hfit (by omega), htake, hdrop _ (Nat.le_refl _), hdrop _ hfit,
        List.drop_drop, ← Nat.mul_succ, List.drop_take, List.drop_drop, Nat.sub_sub, bind_assoc]
      simp only [pure_eq_ok, bind_ok, List.append_assoc]
    · -- The input or the room is used up, and the structural decoder stops as well.
      have hdone : fillRuns t (data.length / (t.typeSize + 4) - k) (data.drop ((t.typeSize + 4) * k))
          ((dst.drop dstOffset).take (count - dstOffset)) = .ok ((dst.drop dstOffset).take (count - dstOffset)) := by
        rcases not_and_or.mp hturn with hfull | hused
        · rw [Nat.sub_eq_zero_of_le (not_lt.mp hfull), List.take_zero, fillRuns_nil]
        · rw [Nat.sub_eq_zero_of_le (not_lt.mp hused)]
          rfl
      have hfront : dst.take dstOffset ++ (dst.drop dstOffset).take (count - dstOffset) = dst.take count := by
        rw [← List.take_add, Nat.add_sub_cancel' hoffset]
      rw [if_neg (by rwa [hwhole]), hdone, bind_ok, hfront, List.take_append_drop]

/-- On the first `count` places the loop does what the structural decoder does on an array of its own. -/
theorem decodeLoop_eq_decode (data : List UInt8) {count fuel : Nat} {dst : List (Native t)}
    (hcount : count ≤ dst.length) (hfuel : data.length / (t.typeSize + 4) < fuel) :
    decodeLoop t data count fuel 0 0 dst =
      decode t data (dst.take count) >>= fun values => .ok (values ++ dst.drop count) :=
  decodeLoop_eq_fillRuns (k := 0) data hcount (Nat.zero_le count) hfuel

/-- **On any bytes the decoder ends, reads no byte past them and writes what the whole
records spell, as far as there is room; the rest of the array stays as it was.** -/
theorem decodeLoop_exact (data : List UInt8) {count fuel : Nat} {dst : List (Native t)}
    (hcount : count ≤ dst.length) (hfuel : data.length / (t.typeSize + 4) < fuel) :
    decodeLoop t data count fuel 0 0 dst =
      .ok ((expand t (records t data)).take count ++
        dst.drop (Min.min count ((records t data).map Prod.snd).sum)) := by
  have hroom : (dst.take count).length = count := by rw [List.length_take, Nat.min_eq_left hcount]
  have hrest : (dst.take count).drop (expand t (records t data)).length ++ dst.drop count =
      dst.drop (Min.min count (expand t (records t data)).length) := by
    rcases le_total count (expand t (records t data)).length with hcut | hfits
    · rw [List.drop_eq_nil_of_le (by rwa [hroom]), Nat.min_eq_left hcut, List.nil_append]
    · rw [Nat.min_eq_right hfits, ← List.drop_append_of_le_length (by rwa [hroom]), List.take_append_drop]
  rw [decodeLoop_eq_decode data hcount hfuel, decode_eq_overwrite, bind_ok, overwrite, hroom, List.append_assoc,
    hrest, length_expand]

/-- A run of two, an empty run, and a record cut off: the other two places keep their values. -/
theorem decodeLoop_exact_truncated :
    decodeLoop .int32 [7, 0, 0, 0, 2, 0, 0, 0, 9, 0, 0, 0, 0, 0, 0, 0, 5, 0, 0] 3 3 0 0 [1, 1, 1, 1] =
      .ok [7, 7, 1, 1] :=
  (decodeLoop_exact (t := .int32) [7, 0, 0, 0, 2, 0, 0, 0, 9, 0, 0, 0, 0, 0, 0, 0, 5, 0, 0] (by decide)
    (by decide)).trans (by decide)

end ColumnarStore.Encoding.RunLength
