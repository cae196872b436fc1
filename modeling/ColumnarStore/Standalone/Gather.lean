import ColumnarStore.Foundation.Lanes
import ColumnarStore.Standalone.Extraction

/-! The vector decoders of the standalone dictionary.

A block loads one register of 32-bit indices and gathers the entries they select. For
entries of four bytes the gather takes the lanes as they are. For entries of eight bytes
it takes 64-bit lanes, so two indices after one another are one index, the block reads
twice the indices it decodes, and the last block reads past the end of the array. -/
namespace ColumnarStore.Standalone.Dictionary
open Foundation
variable {t : DataType}

structure DictionaryDecoder (t : DataType) where
  dictionary : List (Native t) := []

namespace DictionaryDecoder

/-! ### The decoders -/

/-- `dictionary_[indices[i]]` -/
def decodeAt (dec : DictionaryDecoder t) (indices : List (BitVec 32)) (i : Nat) : Outcome (Native t) := do
  let index ← orFault .outOfBounds indices[i]?
  orFault .outOfBounds dec.dictionary[index.toNat]?

def decode (dec : DictionaryDecoder t) (indices : List (BitVec 32)) (count : Nat) : Outcome (List (Native t)) :=
  (List.range count).mapM (decodeAt dec indices)

/-- `loadu(indices + i)` -/
def loadu (n : Nat) (indices : List (BitVec 32)) (i : Nat) : Outcome (Lanes n 32) := do
  let lanes ← (List.range n).mapM fun k => orFault .outOfBounds indices[i + k]?
  return fun k => lanes.getD k 0

/-- The entries the lanes select; a lane is a signed index. -/
def gather {n w : Nat} (dec : DictionaryDecoder t) (idx : Lanes n w) : Outcome (List (Native t)) :=
  (List.finRange n).mapM fun k =>
    orFault .outOfBounds (if 0 ≤ (idx k).toInt then dec.dictionary[(idx k).toInt.toNat]? else none)

/-- `i32gather_epi32` -/
def gatherSingles (m : Nat) (dec : DictionaryDecoder t) (indices : List (BitVec 32)) (i : Nat) :
    Outcome (List (Native t)) := do
  let idx ← loadu (2 * m) indices i
  gather dec idx

/-- `i64gather_epi64` -/
def gatherPairs (m : Nat) (dec : DictionaryDecoder t) (indices : List (BitVec 32)) (i : Nat) :
    Outcome (List (Native t)) := do
  let idx ← loadu (2 * m) indices i
  gather dec (Lanes.pairs idx)

/-- The decoder with registers of `m` lanes of 64 bits. -/
def decodeVector (m : Nat) (dec : DictionaryDecoder t) (indices : List (BitVec 32)) (count : Nat) :
    Outcome (List (Native t)) :=
  if t.typeSize = 4 then blocked (2 * m) count (gatherSingles m dec indices) (decodeAt dec indices)
  else if t.typeSize = 8 then blocked m count (gatherPairs m dec indices) (decodeAt dec indices)
  else decode dec indices count

def decodeAvx2 (dec : DictionaryDecoder t) (indices : List (BitVec 32)) (count : Nat) : Outcome (List (Native t)) :=
  decodeVector 4 dec indices count

/-- In an AVX-512 build. -/
def decodeAvx512 (dec : DictionaryDecoder t) (indices : List (BitVec 32)) (count : Nat) : Outcome (List (Native t)) :=
  decodeVector 8 dec indices count

theorem decodeVector_int32 (m : Nat) (dec : DictionaryDecoder .int32) (indices : List (BitVec 32)) (count : Nat) :
    decodeVector m dec indices count =
      blocked (2 * m) count (gatherSingles m dec indices) (decodeAt dec indices) := rfl

theorem decodeVector_int64 (m : Nat) (dec : DictionaryDecoder .int64) (indices : List (BitVec 32)) (count : Nat) :
    decodeVector m dec indices count = blocked m count (gatherPairs m dec indices) (decodeAt dec indices) := rfl

/-! ### A block -/

theorem loadu_eq_ok_iff {n i : Nat} (hn : 0 < n) {indices : List (BitVec 32)} {idx : Lanes n 32} :
    loadu n indices i = .ok idx ↔ i + n ≤ indices.length ∧ idx = fun k : Fin n => indices.getD (i + k) 0 := by
  constructor
  · intro h
    obtain ⟨lanes, hlanes, heq⟩ := bind_eq_ok.mp h
    cases heq
    obtain ⟨hlen, hall⟩ := mapM_range_eq_ok.mp hlanes
    have hget : ∀ k < n, ∃ x, lanes[k]? = some x ∧ indices[i + k]? = some x := by
      intro k hk
      have hx := List.getElem?_eq_getElem (hk.trans_eq hlen.symm)
      exact ⟨_, hx, orFault_eq_ok.mp (hall k _ hx)⟩
    constructor
    · obtain ⟨x, -, hlast⟩ := hget (n - 1) (by omega)
      have := (List.getElem?_eq_some_iff.mp hlast).1
      omega
    · funext k
      obtain ⟨x, hlane, hindex⟩ := hget k k.isLt
      rw [List.getD_eq_getElem?_getD, List.getD_eq_getElem?_getD, hlane, hindex]
  · intro h
    obtain ⟨hin, rfl⟩ := h
    rw [loadu, mapM_window_ok _ 0 hin, bind_ok, pure_eq_ok]
    refine congrArg _ (funext fun k => ?_)
    rw [getD_map_range k.isLt]

/-- A gather returns when every lane selects an entry. -/
theorem gather_eq_ok_iff {n w : Nat} {dec : DictionaryDecoder t} {idx : Lanes n w} {entries : Fin n → Native t} :
    gather dec idx = .ok (List.ofFn entries) ↔
      ∀ k, 0 ≤ (idx k).toInt ∧ dec.dictionary[(idx k).toInt.toNat]? = some (entries k) := by
  rw [gather, mapM_eq_ok, List.ofFn_eq_map, List.forall₂_map_right_iff, List.forall₂_same]
  refine ⟨fun h k => ?_, fun h k _ => ?_⟩
  · have hk := orFault_eq_ok.mp (h k (List.mem_finRange k))
    split at hk
    · next hle => exact ⟨hle, hk⟩
    · cases hk
  · obtain ⟨hle, hentry⟩ := h k
    rw [if_pos hle, hentry, orFault_some]

/-- A pair of indices selects what the lower one selects, if the upper is 0. -/
theorem pair_selects_iff {m : Nat} (idx : Lanes (2 * m) 32) (k : Fin m) {dict : List (Native t)}
    (hdict : dict.length ≤ 2 ^ 31) {x : Native t} :
    0 ≤ (Lanes.pairs idx k).toInt ∧ dict[(Lanes.pairs idx k).toInt.toNat]? = some x ↔
      idx ⟨2 * k + 1, by omega⟩ = 0 ∧ dict[(idx ⟨2 * k, by omega⟩).toNat]? = some x := by
  have hnat := Lanes.toNat_pairs idx k
  have hlow := (idx ⟨2 * k, by omega⟩).isLt
  have hint := BitVec.toInt_eq_toNat_cond (Lanes.pairs idx k)
  constructor
  · intro h
    obtain ⟨hle, hentry⟩ := h
    have hbound := (List.getElem?_eq_some_iff.mp hentry).1
    have hhigh : (idx ⟨2 * k + 1, by omega⟩).toNat = 0 := by
      split at hint <;> omega
    have heq : (Lanes.pairs idx k).toInt.toNat = (idx ⟨2 * k, by omega⟩).toNat := by
      split at hint <;> omega
    exact ⟨BitVec.eq_of_toNat_eq hhigh, heq ▸ hentry⟩
  · intro h
    obtain ⟨hhigh, hentry⟩ := h
    have hbound := (List.getElem?_eq_some_iff.mp hentry).1
    rw [hhigh] at hnat
    have heq : (Lanes.pairs idx k).toInt = (idx ⟨2 * k, by omega⟩).toNat := by
      rw [hint, if_pos] <;> simp only [BitVec.ofNat_eq_ofNat, BitVec.toNat_zero] at hnat <;> omega
    rw [heq, Int.toNat_natCast]
    exact ⟨Int.natCast_nonneg _, hentry⟩

/-! ### Blocks against single reads -/

theorem decodeAt_eq_ok_iff {dec : DictionaryDecoder t} {indices : List (BitVec 32)} {i : Nat} {x : Native t} :
    decodeAt dec indices i = .ok x ↔ ∃ a, indices[i]? = some a ∧ dec.dictionary[a.toNat]? = some x := by
  rw [decodeAt, bind_eq_ok]
  simp only [orFault_eq_ok]

/-- What a pair of indices is decoded as: the upper must be 0, and the lower selects the
entry of position `i + k`. -/
def PairSelects (dec : DictionaryDecoder t) (indices : List (BitVec 32)) (i k : Nat) : Prop :=
  indices[i + (2 * k + 1)]? = some 0 ∧
    ∃ x, decodeAt dec indices (i + 2 * k) = .ok x ∧ decodeAt dec indices (i + k) = .ok x

section Blocks
variable {m count : Nat} {dec : DictionaryDecoder t} {indices : List (BitVec 32)} {f : Nat → Native t}
  (hdict : dec.dictionary.length ≤ 2 ^ 31) (hread : ∀ i < count, decodeAt dec indices i = .ok (f i))
include hdict hread

/-- A block of single indices gives what the scalar loop gives. -/
theorem gatherSingles_ok (hm : 0 < m) {i : Nat} (hi : i + 2 * m ≤ count) :
    gatherSingles m dec indices i = .ok (List.ofFn fun k : Fin (2 * m) => f (i + k)) := by
  have hlane : ∀ k < 2 * m, ∃ a, indices[i + k]? = some a ∧ dec.dictionary[a.toNat]? = some (f (i + k)) :=
    fun k hk => decodeAt_eq_ok_iff.mp (hread (i + k) (by omega))
  have hin : i + 2 * m ≤ indices.length := by
    obtain ⟨a, ha, -⟩ := hlane (2 * m - 1) (by omega)
    have := (List.getElem?_eq_some_iff.mp ha).1
    omega
  rw [gatherSingles, (loadu_eq_ok_iff (by omega)).mpr ⟨hin, rfl⟩, bind_ok, gather_eq_ok_iff]
  intro k
  obtain ⟨a, ha, hentry⟩ := hlane k k.isLt
  have hbound := (List.getElem?_eq_some_iff.mp hentry).1
  have hint : a.toInt = a.toNat := BitVec.toInt_eq_toNat_of_lt (by omega)
  rw [List.getD_eq_getElem?_getD, ha, Option.getD_some, hint, Int.toNat_natCast]
  exact ⟨Int.natCast_nonneg _, hentry⟩

/-- A block of pairs gives what the scalar loop gives when every pair selects its entry. -/
theorem gatherPairs_ok_iff (hm : 0 < m) {i : Nat} (hi : i + m ≤ count) :
    gatherPairs m dec indices i = .ok (List.ofFn fun k : Fin m => f (i + k)) ↔
      ∀ k < m, PairSelects dec indices i k := by
  rw [gatherPairs, bind_eq_ok]
  constructor
  · intro h k hk
    obtain ⟨idx, hload, hgather⟩ := h
    obtain ⟨hin, rfl⟩ := (loadu_eq_ok_iff (by omega)).mp hload
    obtain ⟨hhigh, hentry⟩ := (pair_selects_iff _ ⟨k, hk⟩ hdict).mp (gather_eq_ok_iff.mp hgather ⟨k, hk⟩)
    have hupper : i + (2 * k + 1) < indices.length := by omega
    have hlower : i + 2 * k < indices.length := by omega
    simp only [List.getD_eq_getElem?_getD, List.getElem?_eq_getElem hupper, List.getElem?_eq_getElem hlower,
      Option.getD_some] at hhigh hentry
    refine ⟨by rw [List.getElem?_eq_getElem hupper, hhigh], f (i + k), ?_, hread (i + k) (by omega)⟩
    exact decodeAt_eq_ok_iff.mpr ⟨_, List.getElem?_eq_getElem hlower, hentry⟩
  · intro h
    have hin : i + 2 * m ≤ indices.length := by
      have := (List.getElem?_eq_some_iff.mp (h (m - 1) (by omega)).1).1
      omega
    refine ⟨_, (loadu_eq_ok_iff (by omega)).mpr ⟨hin, rfl⟩, gather_eq_ok_iff.mpr fun k => ?_⟩
    obtain ⟨hhigh, x, hlower, hentry⟩ := h k k.isLt
    rw [hread (i + k) (by omega)] at hentry
    cases hentry
    obtain ⟨a, ha, hselects⟩ := decodeAt_eq_ok_iff.mp hlower
    rw [pair_selects_iff _ k hdict]
    simp only [List.getD_eq_getElem?_getD, hhigh, ha, Option.getD_some]
    exact ⟨trivial, hselects⟩

end Blocks

/-! ### The vector decoders against the scalar one -/

theorem length_of_gather {n w : Nat} {dec : DictionaryDecoder t} {idx : Lanes n w} {ys : List (Native t)}
    (h : gather dec idx = .ok ys) : ys.length = n := by
  rw [← (mapM_eq_ok.mp h).length_eq, List.length_finRange]

/-- Indices in range are decoded one by one. -/
theorem exists_entries {dec : DictionaryDecoder t} {indices : List (BitVec 32)} {count : Nat}
    (hcount : count ≤ indices.length) (hrange : ∀ a ∈ indices.take count, a.toNat < dec.dictionary.length) :
    ∃ f : Nat → Native t, ∀ i < count, decodeAt dec indices i = .ok (f i) := by
  refine exists_read fun i hi => ?_
  have hget := List.getElem?_eq_getElem (hi.trans_le hcount)
  have htake := (List.getElem?_take_of_lt hi).trans hget
  have hmem := List.mem_of_getElem? htake
  exact ⟨_, decodeAt_eq_ok_iff.mpr ⟨_, hget, List.getElem?_eq_getElem (hrange _ hmem)⟩⟩

/-- Both decoders return, and return the same values. -/
def Alike (m : Nat) (dec : DictionaryDecoder t) (indices : List (BitVec 32)) (count : Nat) : Prop :=
  ∃ values, decode dec indices count = .ok values ∧ decodeVector m dec indices count = .ok values

/-- Entries of eight bytes are decoded alike when every pair in a whole block selects its entry. -/
theorem alike_iff (ht : t.isInteger = true) {m : Nat} (hm : 0 < m) {dec : DictionaryDecoder t}
    (hdict : dec.dictionary.length ≤ 2 ^ 31) {indices : List (BitVec 32)} {count : Nat}
    (hcount : count ≤ indices.length) (hrange : ∀ a ∈ indices.take count, a.toNat < dec.dictionary.length) :
    Alike m dec indices count ↔
      t = .int32 ∨ ∀ b < count / m, ∀ k < m, PairSelects dec indices (b * m) k := by
  obtain ⟨f, hread⟩ := exists_entries hcount hrange
  have hscalar : decode dec indices count = .ok ((List.range count).map f) :=
    mapM_ok fun i hi => hread i (List.mem_range.mp hi)
  have halike : Alike m dec indices count ↔ decodeVector m dec indices count = .ok ((List.range count).map f) := by
    rw [Alike, hscalar]
    exact ⟨fun ⟨_, hvalues, h⟩ => by rw [h, ← hvalues], fun h => ⟨_, rfl, h⟩⟩
  have hfull : ∀ lanes, ∀ b < count / lanes, b * lanes + lanes ≤ count := by
    intro lanes b hb
    rw [← Nat.succ_mul]
    exact (Nat.mul_le_mul_right lanes hb).trans (Nat.div_mul_le_self count lanes)
  rw [halike]
  cases t with
  | int32 =>
    rw [decodeVector_int32, blocked_eq_ok_iff_blocks (fun b ys h => ?_) hread]
    · refine iff_of_true (fun b hb => ?_) (.inl rfl)
      exact gatherSingles_ok hdict hread hm (hfull _ b hb)
    · obtain ⟨idx, -, hgather⟩ := bind_eq_ok.mp h
      exact length_of_gather hgather
  | int64 =>
    rw [decodeVector_int64, blocked_eq_ok_iff_blocks (fun b ys h => ?_) hread, or_iff_right (by decide)]
    · exact forall₂_congr fun b hb => gatherPairs_ok_iff hdict hread hm (hfull _ b hb)
    · obtain ⟨idx, -, hgather⟩ := bind_eq_ok.mp h
      exact length_of_gather hgather
  | _ => cases ht

/-- An array decoded to its end has no index behind the last block to pair with. -/
theorem alike_whole_iff (ht : t.isInteger = true) {m : Nat} (hm : 0 < m) {dec : DictionaryDecoder t}
    (hdict : dec.dictionary.length ≤ 2 ^ 31) {indices : List (BitVec 32)}
    (hrange : ∀ a ∈ indices, a.toNat < dec.dictionary.length) :
    Alike m dec indices indices.length ↔ t = .int32 ∨ indices.length < m := by
  rw [alike_iff ht hm hdict le_rfl fun a ha => hrange a (List.mem_of_mem_take ha)]
  refine or_congr_right ⟨fun h => ?_, fun h b hb => ?_⟩
  · by_contra hlen
    have hblocks : 0 < indices.length / m := Nat.div_pos (not_lt.mp hlen) hm
    have hupper := (List.getElem?_eq_some_iff.mp (h (indices.length / m - 1) (by omega) (m - 1) (by omega)).1).1
    have hdiv := Nat.div_add_mod indices.length m
    have hmod := Nat.mod_lt indices.length hm
    rw [Nat.sub_mul, Nat.one_mul, Nat.mul_comm] at hupper
    have hle : m ≤ m * (indices.length / m) := Nat.le_mul_of_pos_right m hblocks
    omega
  · rw [Nat.div_eq_of_lt h] at hb
    cases hb

/-- **With indices in range the AVX2 decoder gives what the scalar one gives exactly when
the entries have four bytes, or in every whole block of four the upper index of each of the
four pairs loaded is 0 and the lower one selects the entry of its lane.** -/
theorem decodeAvx2_alike_iff (ht : t.isInteger = true) {dec : DictionaryDecoder t}
    (hdict : dec.dictionary.length ≤ 2 ^ 31) {indices : List (BitVec 32)} {count : Nat}
    (hcount : count ≤ indices.length) (hrange : ∀ a ∈ indices.take count, a.toNat < dec.dictionary.length) :
    (∃ values, decode dec indices count = .ok values ∧ decodeAvx2 dec indices count = .ok values) ↔
      t = .int32 ∨ ∀ b < count / 4, ∀ k < 4, PairSelects dec indices (b * 4) k :=
  alike_iff ht (by decide) hdict hcount hrange

theorem decodeAvx2_alike_three :
    (∃ values, decode (⟨[-4, 70000]⟩ : DictionaryDecoder .int64) [1, 0, 1] 3 = .ok values ∧
        decodeAvx2 (⟨[-4, 70000]⟩ : DictionaryDecoder .int64) [1, 0, 1] 3 = .ok values) ↔
      DataType.int64 = .int32 ∨
        ∀ b < 3 / 4, ∀ k < 4, PairSelects (⟨[-4, 70000]⟩ : DictionaryDecoder .int64) [1, 0, 1] (b * 4) k :=
  decodeAvx2_alike_iff (t := .int64) rfl (by decide) (by decide) (by simp)

/-- An array of four indices is read past its end; with four zeros behind it the second lane
is the third index. -/
theorem decodeAvx2_not_alike :
    (¬ ∃ values, decode (⟨[10, 20]⟩ : DictionaryDecoder .int64) [0, 0, 1, 0] 4 = .ok values ∧
        decodeAvx2 (⟨[10, 20]⟩ : DictionaryDecoder .int64) [0, 0, 1, 0] 4 = .ok values) ∧
      decode (⟨[10, 20]⟩ : DictionaryDecoder .int64) [0, 0, 1, 0, 0, 0, 0, 0] 4 = .ok [10, 10, 20, 10] ∧
      decodeAvx2 (⟨[10, 20]⟩ : DictionaryDecoder .int64) [0, 0, 1, 0, 0, 0, 0, 0] 4 = .ok [10, 20, 10, 10] := by
  refine ⟨?_, rfl, rfl⟩
  rintro ⟨values, -, hvector⟩
  have hfault : decodeAvx2 (⟨[10, 20]⟩ : DictionaryDecoder .int64) [0, 0, 1, 0] 4 = .error .outOfBounds := rfl
  rw [hfault] at hvector
  cases hvector

end DictionaryDecoder

end ColumnarStore.Standalone.Dictionary
