import ColumnarStore.Encoding.FrameOfReference

/-! The frame-of-reference codec over the full range of 32-bit values.

From a distance of `2^31` on, fields are 32 bits wide and two of them share a word. The
distance is widened with its sign, so one whose top bit is set fills the upper half of
its word with ones. A value in an odd place is read from there: it comes back as the
number before the least one if the value ahead of it is that far away. -/
namespace ColumnarStore.Encoding.FrameOfReference
open Foundation Foundation.Packing Width

/-! ### Two fields a word -/

/-- A distance as it is widened for its word. -/
def widened (lo x : Native .int32) : BitVec 64 := (x - lo).signExtend 64

/-- The words of the values, taken in pairs. -/
def pairWords (lo : Native .int32) : List (Native .int32) → List (BitVec 64)
  | [] => []
  | [x] => [widened lo x]
  | x :: y :: rest => (widened lo x ||| widened lo y <<< 32) :: pairWords lo rest

/-- One turn of the loop, into the word behind the full ones. -/
theorem pack_behind (lo : Native .int32) {i : Nat} (before after : List (BitVec 64)) (w : BitVec 64)
    (x : Native .int32) (rest : List (Native .int32)) (h : i / 2 = before.length) :
    pack .int32 32 2 lo i (x :: rest) (before ++ w :: after) =
      pack .int32 32 2 lo (i + 1) rest (before ++ (w ||| widened lo x <<< (i % 2 * 32)) :: after) := by
  rw [pack, h, orWord_append, orFault_some, bind_ok]
  rfl

/-- The loop fills the words behind the first ones, two values at a time. -/
theorem pack_pairs (lo : Native .int32) (before : List (BitVec 64)) (src : List (Native .int32)) :
    pack .int32 32 2 lo (2 * before.length) src (before ++ List.replicate ((src.length + 1) / 2) 0) =
      .ok (before ++ pairWords lo src) := by
  induction src using pairWords.induct generalizing before with
  | case1 => rfl
  | case2 x =>
    have hzeros : List.replicate (([x].length + 1) / 2) (0 : BitVec 64) = [0#64] := by
      rw [List.length_singleton]
      rfl
    rw [hzeros, pack_behind lo before [] 0#64 x [] (by omega), Nat.mul_mod_right, Nat.zero_mul, BitVec.shiftLeft_zero,
      BitVec.zero_or]
    rfl
  | case3 x y rest ih =>
    have hzeros : List.replicate (((x :: y :: rest).length + 1) / 2) (0 : BitVec 64) =
        0#64 :: List.replicate ((rest.length + 1) / 2) 0 := by
      have hcount : ((x :: y :: rest).length + 1) / 2 = (rest.length + 1) / 2 + 1 := by
        rw [List.length_cons, List.length_cons]
        omega
      rw [hcount]
      rfl
    have hrest := ih (before ++ [widened lo x ||| widened lo y <<< 32])
    rw [List.length_append, List.length_singleton, Nat.mul_succ, List.append_assoc, List.append_assoc] at hrest
    rw [hzeros, pack_behind lo before _ 0#64 x _ (by omega), pack_behind lo before _ _ y rest (by omega),
      Nat.mul_mod_right, Nat.zero_mul, BitVec.shiftLeft_zero, BitVec.zero_or,
      show (2 * before.length + 1) % 2 = 1 by omega, Nat.one_mul]
    exact hrest

theorem packAll_pairs (lo : Native .int32) (src : List (Native .int32)) :
    packAll .int32 32 lo src = .ok (pairWords lo src) := pack_pairs lo [] src

/-- The upper half of a word: the value after the first of the pair, if there is one. -/
def upperHalf (lo : Native .int32) : Option (Native .int32) → BitVec 64
  | none => 0
  | some y => widened lo y <<< 32

/-- The word of the value in an even place. -/
theorem getElem_pairWords (lo : Native .int32) {src : List (Native .int32)} {k : Nat} {x : Native .int32}
    (hx : src[2 * k]? = some x) :
    (pairWords lo src)[k]? = some (widened lo x ||| upperHalf lo src[2 * k + 1]?) := by
  induction src using pairWords.induct generalizing k with
  | case1 => cases hx
  | case2 y =>
    cases k with
    | zero =>
      cases hx
      exact congrArg some BitVec.or_zero.symm
    | succ k => cases hx
  | case3 y z rest ih =>
    cases k with
    | zero =>
      cases hx
      rfl
    | succ k => exact ih hx

/-! ### Reading them back -/

theorem getLsbD_widened (d : BitVec 32) {j : Nat} (hj : j < 32) :
    (d.signExtend 64).getLsbD j = d.getLsbD j ∧ (d.signExtend 64).getLsbD (32 + j) = d.msb := by
  have h64 : j < 64 ∧ 32 + j < 64 := by omega
  rw [BitVec.getLsbD_signExtend, BitVec.getLsbD_signExtend]
  simp [hj, h64]

theorem widened_low (lo x : Native .int32) {j : Nat} (hj : j < 32) :
    (widened lo x).getLsbD j = (x - lo).getLsbD j := (getLsbD_widened (x - lo) hj).1

theorem widened_high (lo x : Native .int32) {j : Nat} (hj : j < 32) :
    (widened lo x).getLsbD (32 + j) = (x - lo).msb := (getLsbD_widened (x - lo) hj).2

theorem upperHalf_low (lo : Native .int32) (y : Option (Native .int32)) {j : Nat} (hj : j < 32) :
    (upperHalf lo y).getLsbD j = false := by
  cases y with
  | none => exact BitVec.getLsbD_zero
  | some y =>
    rw [upperHalf, BitVec.getLsbD_shiftLeft]
    simp [hj]

theorem upperHalf_high (lo y : Native .int32) {j : Nat} (hj : j < 32) :
    (upperHalf lo (some y)).getLsbD (32 + j) = (y - lo).getLsbD j := by
  have h64 : 32 + j < 64 := by omega
  rw [upperHalf, BitVec.getLsbD_shiftLeft, Nat.add_sub_cancel_left, widened_low lo y hj]
  simp [h64]

/-- What a distance whose top bit is set leaves over the value after it. -/
def spill (d : Native .int32) : Native .int32 := if d.msb then BitVec.allOnes _ else 0

theorem getLsbD_spill (d : Native .int32) {j : Nat} (hj : j < 32) : (spill d).getLsbD j = d.msb := by
  rw [spill]
  cases d.msb with
  | false => exact BitVec.getLsbD_zero
  | true => exact (BitVec.getLsbD_allOnes).trans (decide_eq_true hj)

/-- A value in an even place comes back. -/
theorem unpack_even (lo : Native .int32) {src : List (Native .int32)} {k : Nat} {x : Native .int32}
    (hx : src[2 * k]? = some x) : unpack .int32 (storeWords 8 (pairWords lo src)) lo 32 (2 * k) = .ok x := by
  have hload := loadWord_storeWords_self (n := 8) (getElem_pairWords lo hx)
  have hfield : ∀ j < 32, (widened lo x ||| upperHalf lo src[2 * k + 1]?).getLsbD (0 + j) =
      (x - lo).toNat.testBit j := by
    intro j hj
    rw [Nat.zero_add, BitVec.getLsbD_or, widened_low lo x hj, upperHalf_low lo _ hj, Bool.or_false,
      BitVec.testBit_toNat]
  have hread := read_one (show 32 < 64 by decide) (x - lo).isLt hfield
  have hplace : 2 * k / (64 / 32) = k ∧ 2 * k % (64 / 32) * 32 = 0 := by omega
  rw [BitVec.setWidth_eq] at hread
  rw [unpack, hplace.1, hplace.2, hload, orFault_some, bind_ok, pure_eq_ok]
  exact congrArg _ (add_setWidth_distance hread)

/-- Over one in an odd place the value ahead of it has spilt. -/
theorem unpack_odd (lo : Native .int32) {src : List (Native .int32)} {k : Nat} {x y : Native .int32}
    (hx : src[2 * k]? = some x) (hy : src[2 * k + 1]? = some y) :
    unpack .int32 (storeWords 8 (pairWords lo src)) lo 32 (2 * k + 1) =
      .ok (lo + ((y - lo) ||| spill (x - lo))) := by
  have hword := getElem_pairWords lo hx
  rw [hy] at hword
  have hload := loadWord_storeWords_self (n := 8) hword
  have hfield : ∀ j < 32, (widened lo x ||| upperHalf lo (some y)).getLsbD (32 + j) =
      ((y - lo) ||| spill (x - lo)).toNat.testBit j := by
    intro j hj
    rw [BitVec.getLsbD_or, widened_high lo x hj, upperHalf_high lo y hj, BitVec.testBit_toNat, BitVec.getLsbD_or,
      Bool.or_comm, getLsbD_spill _ hj]
  have hread := read_one (show 32 < 64 by decide) ((y - lo) ||| spill (x - lo)).isLt hfield
  have hplace : (2 * k + 1) / (64 / 32) = k ∧ (2 * k + 1) % (64 / 32) * 32 = 32 := by omega
  rw [BitVec.setWidth_eq] at hread
  rw [unpack, hplace.1, hplace.2, hload, orFault_some, bind_ok, pure_eq_ok]
  exact congrArg (fun d => Except.ok (lo + d)) (setWidth_of_toNat_eq hread)

/-! ### When a block comes back -/

/-- What the two values of each pair have to do with the least of all: the first is less than
`2^31` away from it, or the second is as far away as can be. -/
def Unspilled (src : List (Native .int32)) : Prop :=
  ∀ lo ∈ src, (∀ z ∈ src, lo.toInt ≤ z.toInt) → ∀ (k : Nat) (x y : Native .int32),
    src[2 * k]? = some x → src[2 * k + 1]? = some y →
      x.toInt - lo.toInt < 2 ^ 31 ∨ y.toInt - lo.toInt = 2 ^ 32 - 1

/-- A distance reads back under what has spilt over it if nothing has, or it is all ones. -/
theorem or_spill_eq_iff (e d : Native .int32) :
    e ||| spill d = e ↔ d.toNat < 2 ^ 31 ∨ e.toNat = 2 ^ 32 - 1 := by
  have hmsb : d.msb = false ↔ d.toNat < 2 ^ 31 := by
    rw [BitVec.msb_eq_false_iff_two_mul_lt]
    show 2 * d.toNat < 2 ^ 32 ↔ _
    omega
  have hones : e.toNat = 2 ^ 32 - 1 ↔ e = BitVec.allOnes _ := by
    rw [← BitVec.toNat_inj, BitVec.toNat_allOnes]
    exact Iff.rfl
  rw [← hmsb, hones, spill]
  cases d.msb with
  | false => simp
  | true => simp [eq_comm]

/-- From a distance of `2^31` on, the block is its pairs. -/
theorem encode_wide {x : Native .int32} {rest : List (Native .int32)} (h : 2 ^ 31 ≤ spread .int32 (x :: rest)) :
    encode .int32 (x :: rest) = .ok (storeHeader .int32 (Native.bounds .int32 x rest).1
      (Native.bounds .int32 x rest).2 32 ++ storeWords 8 (pairWords (Native.bounds .int32 x rest).1 (x :: rest))) := by
  have hle : (spread .int32 (x :: rest)).size ≤ 32 := size_spread_le rfl (x :: rest)
  have hsize : (spread .int32 (x :: rest)).size = 32 := Nat.le_antisymm hle (Nat.lt_size.mpr h)
  rw [encode_of_width ((Nat.size_le.mp hle).trans (by decide)) (by omega), hsize, packAll_pairs, bind_ok]

/-- A block of pairs is read back if every value in an odd place is. -/
theorem decode_pairs_iff (lo hi : Native .int32) {src : List (Native .int32)} (hsrc : src ≠ []) :
    (∀ dst : List (Native .int32), dst.length = src.length →
      decode .int32 (storeHeader .int32 lo hi 32 ++ storeWords 8 (pairWords lo src)) dst = .ok src) ↔
    ∀ (k : Nat) (x y : Native .int32), src[2 * k]? = some x → src[2 * k + 1]? = some y →
      (y - lo) ||| spill (x - lo) = y - lo := by
  have hlen : src.length ≠ 0 := by rwa [ne_eq, List.length_eq_zero_iff]
  have hdecode : ∀ dst : List (Native .int32), dst.length = src.length →
      (decode .int32 (storeHeader .int32 lo hi 32 ++ storeWords 8 (pairWords lo src)) dst = .ok src ↔
        ∀ (i : Nat) (y : Native .int32), src[i]? = some y →
          unpack .int32 (storeWords 8 (pairWords lo src)) lo 32 i = .ok y) := by
    intro dst hdst
    rw [decode_storeHeader lo hi (by decide) (by decide) _ (by omega), mapM_range_eq_ok, hdst, and_iff_right rfl]
  have hback : ∀ e y : Native .int32, lo + e = y ↔ e = y - lo := by
    intro e y
    rw [BitVec.add_comm, ← BitVec.eq_sub_iff_add_eq]
  constructor
  · intro h k x y hx hy
    have hodd := (hdecode src rfl).mp (h src rfl) _ y hy
    rw [unpack_odd lo hx hy, Except.ok.injEq, hback] at hodd
    exact hodd
  · intro h dst hdst
    refine (hdecode dst hdst).mpr fun i y hy => ?_
    obtain ⟨k, rfl | rfl⟩ := Nat.even_or_odd' i
    · exact unpack_even lo hy
    · have hk := (List.getElem?_eq_some_iff.mp hy).1
      have hx := List.getElem?_eq_getElem (show 2 * k < src.length by omega)
      rw [unpack_odd lo hx hy, Except.ok.injEq, hback]
      exact h k _ y hx hy

/-- **A block of 32-bit values comes back exactly if nothing spills over a value, or what
spills over it changes no bit.** -/
theorem frame_roundTrips_iff (src : List (Native .int32)) :
    RoundTrips (encode .int32) (decode .int32) src ↔ Unspilled src := by
  cases src with
  | nil => exact iff_of_true (decode_encode rfl (by decide)) (fun lo hlo => absurd hlo (List.not_mem_nil))
  | cons first rest =>
    obtain ⟨hlo, -, hall⟩ := Native.bounds_spec (t := .int32) rfl first rest
    rcases lt_or_ge (spread .int32 (first :: rest)) (2 ^ 31) with hnarrow | hwide
    · refine iff_of_true (decode_encode rfl hnarrow) fun lo hlo _ k x y hx _ => .inl ?_
      exact (spread_lt_iff rfl first rest (2 ^ 31)).mp hnarrow x (List.mem_of_getElem? hx) lo hlo
    · have hpair : ∀ (k : Nat) (x y : Native .int32), (first :: rest)[2 * k]? = some x →
          (first :: rest)[2 * k + 1]? = some y →
          ((y - (Native.bounds .int32 first rest).1) ||| spill (x - (Native.bounds .int32 first rest).1) =
              y - (Native.bounds .int32 first rest).1 ↔
            x.toInt - (Native.bounds .int32 first rest).1.toInt < 2 ^ 31 ∨
              y.toInt - (Native.bounds .int32 first rest).1.toInt = 2 ^ 32 - 1) := by
        intro k x y hx hy
        have hx' := toNat_sub (hall x (List.mem_of_getElem? hx)).1
        have hy' := toNat_sub (hall y (List.mem_of_getElem? hy)).1
        rw [or_spill_eq_iff]
        omega
      simp only [RoundTrips, encode_wide hwide, Except.ok.injEq, exists_eq_left',
        decode_pairs_iff _ _ (List.cons_ne_nil first rest)]
      constructor
      · intro h lo hmem hleast k x y hx hy
        have hsame : lo = (Native.bounds .int32 first rest).1 :=
          BitVec.eq_of_toInt_eq (Int.le_antisymm (hleast _ hlo) (hall lo hmem).1)
        rw [hsame]
        exact (hpair k x y hx hy).mp (h k x y hx hy)
      · intro h k x y hx hy
        exact (hpair k x y hx hy).mpr (h _ hlo (fun z hz => (hall z hz).1) k x y hx hy)

/-- Zero is `2^31` away from the least number, and the five after it is lost. -/
theorem wide_not_roundTrips : ¬ RoundTrips (encode .int32) (decode .int32) [0, 5, BitVec.intMin 32] := by
  intro h
  obtain ⟨bytes, hencode, hdecode⟩ := h
  have hrun : (encode .int32 [0, 5, BitVec.intMin 32] >>= fun bytes => decode .int32 bytes [0, 0, 0]) =
      .ok [0, BitVec.intMax 32, BitVec.intMin 32] := by decide +kernel
  rw [hencode, bind_ok, hdecode [0, 0, 0] rfl] at hrun
  exact absurd (Except.ok.inj hrun) (by decide)

end ColumnarStore.Encoding.FrameOfReference
