import Mathlib

/-! Bit fields packed into an array of words.

An array of words is one string of bits (`bitAt`), least significant first. A packer
ORs values into zeroed words, each at its own position; a value may end in the word
after the one it begins in. `Packed` says which bits are set in terms of the values
alone. As long as the fields do not overlap, a field reads back as its value. -/
namespace ColumnarStore.Foundation.Packing
variable {w : Nat}

/-! ### Bits of an array -/

/-- `words[k] |= x`, if there is such a word. -/
def orWord (words : List (BitVec w)) (k : Nat) (x : BitVec w) : Option (List (BitVec w)) :=
  if k < words.length then some (words.modify k (· ||| x)) else none

/-- Bit `q` of the array; past its end every bit is clear. -/
def bitAt (words : List (BitVec w)) (q : Nat) : Bool := (words.getD (q / w) 0).getLsbD (q % w)

theorem orWord_some {words : List (BitVec w)} {k : Nat} (hk : k < words.length) (x : BitVec w) :
    ∃ words', orWord words k x = some words' := ⟨_, if_pos hk⟩

theorem length_orWord {words words' : List (BitVec w)} {k : Nat} {x : BitVec w}
    (h : orWord words k x = some words') : words'.length = words.length := by
  unfold orWord at h
  split at h
  · cases h
    exact List.length_modify ..
  · cases h

/-- The word behind a prefix of the array. -/
theorem orWord_append (before after : List (BitVec w)) (y x : BitVec w) :
    orWord (before ++ y :: after) before.length x = some (before ++ (y ||| x) :: after) := by
  rw [orWord, if_pos (by simp), List.modify_eq_take_cons_drop (by simp)]
  simp

theorem bitAt_orWord {words words' : List (BitVec w)} {k : Nat} {x : BitVec w}
    (h : orWord words k x = some words') (q : Nat) :
    bitAt words' q = (bitAt words q || (decide (q / w = k) && x.getLsbD (q % w))) := by
  unfold orWord at h
  split at h
  · next hk =>
    cases h
    by_cases hq : q / w = k
    · simp [bitAt, hq, List.getD_eq_getElem?_getD, hk]
    · have hne : k ≠ q / w := fun hk' => hq hk'.symm
      simp [bitAt, hq, hne, List.getD_eq_getElem?_getD]
  · cases h

theorem bitAt_zeros (n q : Nat) : bitAt (List.replicate n (0 : BitVec w)) q = false := by
  rw [bitAt, List.getD_eq_getElem?_getD, List.getElem?_replicate]
  split <;> simp

theorem div_mod_window {k j : Nat} (hj : j < w) : (k * w + j) / w = k ∧ (k * w + j) % w = j := by
  rw [Nat.mul_comm]
  exact ⟨by rw [Nat.mul_add_div (by omega), Nat.div_eq_of_lt hj, Nat.add_zero],
    by rw [Nat.mul_add_mod, Nat.mod_eq_of_lt hj]⟩

/-- The bits of one word are a window of the array's. -/
theorem bitAt_window {words : List (BitVec w)} {k j : Nat} (hj : j < w) {x : BitVec w}
    (hx : words[k]? = some x) : bitAt words (k * w + j) = x.getLsbD j := by
  obtain ⟨hdiv, hmod⟩ := div_mod_window (k := k) hj
  rw [bitAt, hdiv, hmod, List.getD_eq_getElem?_getD, hx]
  rfl

/-! ### Writing a field -/

/-- `words'` is `words` with `value` ORed in at bit position `p`. -/
def Deposited (p value : Nat) (words words' : List (BitVec w)) : Prop :=
  words'.length = words.length ∧
    ∀ q, bitAt words' q = true ↔ bitAt words q = true ∨ ∃ j, q = p + j ∧ value.testBit j = true

/-- A shifted word deposits as much of its value as the word has room for. -/
theorem deposited_low {words words' : List (BitVec w)} {k off : Nat} {x : BitVec w} (hoff : off ≤ w)
    (h : orWord words k (x <<< off) = some words') :
    Deposited (k * w + off) (x.toNat % 2 ^ (w - off)) words words' := by
  refine ⟨length_orWord h, fun q => ?_⟩
  have hwindow : (decide (q / w = k) && (x <<< off).getLsbD (q % w)) = true ↔
      ∃ j, q = k * w + off + j ∧ (x.toNat % 2 ^ (w - off)).testBit j = true := by
    have hq := Nat.div_add_mod q w
    simp only [BitVec.getLsbD_shiftLeft, Nat.testBit_mod_two_pow, Bool.and_eq_true, decide_eq_true_eq,
      Bool.not_eq_true', decide_eq_false_iff_not]
    constructor
    · intro h'
      obtain ⟨rfl, ⟨hlt, hge⟩, hbit⟩ := h'
      rw [Nat.mul_comm] at hq
      exact ⟨q % w - off, by omega, by omega, hbit⟩
    · intro h'
      obtain ⟨j, rfl, hj, hbit⟩ := h'
      obtain ⟨hdiv, hmod⟩ := div_mod_window (k := k) (show off + j < w by omega)
      rw [Nat.add_assoc, hdiv, hmod, Nat.add_sub_cancel_left]
      exact ⟨rfl, ⟨by omega, by omega⟩, hbit⟩
  rw [bitAt_orWord h, Bool.or_eq_true, hwindow]

/-- A field inside one word. -/
theorem deposited_one {words words' : List (BitVec w)} {k off bits : Nat} {x : BitVec w}
    (hfit : off + bits ≤ w) (hx : x.toNat < 2 ^ bits)
    (h : orWord words k (x <<< off) = some words') :
    Deposited (k * w + off) x.toNat words words' := by
  have hlow := deposited_low (by omega) h
  rwa [Nat.mod_eq_of_lt (hx.trans_le (Nat.pow_le_pow_right (by decide) (by omega)))] at hlow

/-- A field that begins in one word and ends in the next. -/
theorem deposited_two {words words₁ words₂ : List (BitVec w)} {k off : Nat} {x : BitVec w}
    (hoff : off ≤ w) (h₁ : orWord words k (x <<< off) = some words₁)
    (h₂ : orWord words₁ (k + 1) (x >>> (w - off)) = some words₂) :
    Deposited (k * w + off) x.toNat words words₂ := by
  obtain ⟨hlen₁, hbits₁⟩ := deposited_low hoff h₁
  have hrest : Deposited ((k + 1) * w + 0) ((x >>> (w - off)).toNat % 2 ^ (w - 0)) words₁ words₂ :=
    deposited_low (Nat.zero_le w) (by rwa [BitVec.shiftLeft_zero])
  rw [Nat.sub_zero, Nat.mod_eq_of_lt (x >>> (w - off)).isLt] at hrest
  obtain ⟨hlen₂, hbits₂⟩ := hrest
  refine ⟨hlen₂.trans hlen₁, fun q => ?_⟩
  rw [hbits₂, hbits₁, or_assoc]
  refine or_congr_right ?_
  simp only [Nat.testBit_mod_two_pow, BitVec.toNat_ushiftRight, Nat.testBit_shiftRight,
    Bool.and_eq_true, decide_eq_true_eq, Nat.add_zero, Nat.succ_mul]
  constructor
  · intro h
    rcases h with ⟨j, rfl, hj, hbit⟩ | ⟨j, rfl, hbit⟩
    · exact ⟨j, rfl, hbit⟩
    · exact ⟨w - off + j, by omega, hbit⟩
  · intro h
    obtain ⟨j, rfl, hbit⟩ := h
    by_cases hj : j < w - off
    · exact .inl ⟨j, rfl, hj, hbit⟩
    · refine .inr ⟨j - (w - off), by omega, ?_⟩
      rwa [Nat.add_sub_cancel' (by omega)]

/-! ### All fields -/

/-- The array holds exactly the values, the `i`-th from bit `pos i` on. -/
def Packed (pos : Nat → Nat) (values : List Nat) (words : List (BitVec w)) : Prop :=
  ∀ q, bitAt words q = true ↔
    ∃ i v, values[i]? = some v ∧ ∃ j, q = pos i + j ∧ v.testBit j = true

theorem packed_zeros (pos : Nat → Nat) (n : Nat) : Packed pos [] (List.replicate n (0 : BitVec w)) := by
  intro q
  rw [bitAt_zeros]
  simp

theorem Packed.deposit {pos : Nat → Nat} {values : List Nat} {value : Nat}
    {words words' : List (BitVec w)} (h : Packed pos values words)
    (hd : Deposited (pos values.length) value words words') : Packed pos (values ++ [value]) words' := by
  intro q
  rw [hd.2, h q]
  constructor
  · intro h
    rcases h with ⟨i, v, hv, hbit⟩ | hbit
    · exact ⟨i, v, by rw [List.getElem?_append_left (List.getElem?_eq_some_iff.mp hv).1, hv], hbit⟩
    · exact ⟨values.length, value, by simp, hbit⟩
  · intro h
    obtain ⟨i, v, hv, hbit⟩ := h
    rcases lt_or_ge i values.length with hi | hi
    · rw [List.getElem?_append_left hi] at hv
      exact .inl ⟨i, v, hv, hbit⟩
    · rw [List.getElem?_append_right hi, List.getElem?_singleton] at hv
      split at hv
      · next hzero =>
        cases hv
        cases (by omega : i = values.length)
        exact .inr hbit
      · cases hv

/-- What is packed stands for the elements of a list. -/
theorem Packed.deposit_map {α : Type*} {f : α → Nat} {pos : Nat → Nat} {before : List α} {x : α}
    {words words' : List (BitVec w)} (h : Packed pos (before.map f) words)
    (hd : Deposited (pos before.length) (f x) words words') :
    Packed pos ((before ++ [x]).map f) words' := by
  rw [List.map_append]
  refine h.deposit ?_
  rw [List.length_map]
  exact hd

/-- Fields that do not overlap read back as their values. -/
theorem Packed.bitAt_field {pos : Nat → Nat} {bits : Nat} {values : List Nat} {words : List (BitVec w)}
    (h : Packed pos values words) (hpos : ∀ i, pos i + bits ≤ pos (i + 1))
    (hbits : ∀ v ∈ values, v < 2 ^ bits) {i v j : Nat} (hv : values[i]? = some v) (hj : j < bits) :
    bitAt words (pos i + j) = v.testBit j := by
  have hlater : ∀ i d, pos i + bits ≤ pos (i + 1 + d) := by
    intro i d
    induction d with
    | zero => exact hpos i
    | succ d ih => exact ih.trans ((Nat.le_add_right _ bits).trans (hpos (i + 1 + d)))
  rw [Bool.eq_iff_iff, h]
  constructor
  · intro h
    obtain ⟨i', v', hv', j', hq, hbit⟩ := h
    have hj' : j' < bits := by
      by_contra hge
      have hlt := (hbits v' (List.mem_of_getElem? hv')).trans_le
        (Nat.pow_le_pow_right (by decide) (not_lt.mp hge))
      rw [Nat.testBit_lt_two_pow hlt] at hbit
      cases hbit
    rcases lt_trichotomy i i' with hi | hi | hi
    · have := hlater i (i' - (i + 1))
      rw [show i + 1 + (i' - (i + 1)) = i' by omega] at this
      omega
    · subst hi
      rw [hv] at hv'
      cases hv'
      cases (by omega : j = j')
      exact hbit
    · have := hlater i' (i - (i' + 1))
      rw [show i' + 1 + (i - (i' + 1)) = i by omega] at this
      omega
  · intro hbit
    exact ⟨i, v, hv, j, rfl, hbit⟩

theorem Packed.bitAt_map {α : Type*} {f : α → Nat} {pos : Nat → Nat} {bits : Nat} {src : List α}
    {words : List (BitVec w)} (h : Packed pos (src.map f) words) (hpos : ∀ i, pos i + bits ≤ pos (i + 1))
    (hbits : ∀ x ∈ src, f x < 2 ^ bits) {i j : Nat} {x : α} (hx : src[i]? = some x) (hj : j < bits) :
    bitAt words (pos i + j) = (f x).testBit j := by
  refine h.bitAt_field hpos ?_ (by rw [List.getElem?_map, hx]; rfl) hj
  intro v hv
  obtain ⟨y, hy, rfl⟩ := List.mem_map.mp hv
  exact hbits y hy

/-! ### Reading a field -/

theorem getLsbD_mask {bits : Nat} (hbits : bits < w) (j : Nat) :
    ((1#w <<< bits) - 1#w).getLsbD j = decide (j < bits) := by
  have hpow : 2 ^ bits < 2 ^ w := Nat.pow_lt_pow_right (by decide) hbits
  have hone : (1#w).toNat = 1 := by
    rw [BitVec.toNat_ofNat]
    exact Nat.mod_eq_of_lt (Nat.one_lt_two_pow (by omega))
  have hshift : (1#w <<< bits).toNat = 2 ^ bits := by
    rw [BitVec.toNat_shiftLeft, hone, Nat.shiftLeft_eq, Nat.one_mul, Nat.mod_eq_of_lt hpow]
  have hnat : ((1#w <<< bits) - 1#w).toNat = 2 ^ bits - 1 := by
    rw [BitVec.toNat_sub_of_le, hshift, hone]
    rw [BitVec.le_def, hshift, hone]
    exact Nat.one_le_two_pow
  rw [← BitVec.testBit_toNat, hnat, Nat.testBit_two_pow_sub_one]

/-- Shifting and masking one word reads a field that lies in it. -/
theorem read_one {m off bits v : Nat} {x : BitVec w} (hbits : bits < m)
    (hv : v < 2 ^ bits) (hfield : ∀ j < bits, x.getLsbD (off + j) = v.testBit j) :
    ((x >>> off).setWidth m &&& ((1#m <<< bits) - 1#m)).toNat = v := by
  refine Nat.eq_of_testBit_eq fun j => ?_
  rw [BitVec.testBit_toNat, BitVec.getLsbD_and, getLsbD_mask hbits, BitVec.getLsbD_setWidth,
    BitVec.getLsbD_ushiftRight]
  by_cases hj : j < bits
  · have hm : j < m := hj.trans hbits
    simp [hj, hm, hfield j hj]
  · rw [Nat.testBit_lt_two_pow (hv.trans_le (Nat.pow_le_pow_right (by decide) (not_lt.mp hj)))]
    simp [hj]

/-- A field that ends in the next word is read from both. -/
theorem read_two {m off bits v : Nat} {x y : BitVec w} (hoff : off ≤ w) (hbits : bits < m)
    (hv : v < 2 ^ bits)
    (hlow : ∀ j < bits, off + j < w → x.getLsbD (off + j) = v.testBit j)
    (hhigh : ∀ j < bits, w ≤ off + j → y.getLsbD (off + j - w) = v.testBit j) :
    (((x >>> off).setWidth m ||| y.setWidth m <<< (w - off)) &&& ((1#m <<< bits) - 1#m)).toNat =
      v := by
  refine Nat.eq_of_testBit_eq fun j => ?_
  rw [BitVec.testBit_toNat, BitVec.getLsbD_and, getLsbD_mask hbits, BitVec.getLsbD_or,
    BitVec.getLsbD_setWidth, BitVec.getLsbD_ushiftRight, BitVec.getLsbD_shiftLeft,
    BitVec.getLsbD_setWidth]
  by_cases hj : j < bits
  · have hm : j < m := hj.trans hbits
    by_cases hcut : off + j < w
    · have hin : j < w - off := by omega
      simp [hj, hm, hin, hlow j hj hcut]
    · have hout : ¬ j < w - off := by omega
      have hzero : x.getLsbD (off + j) = false := BitVec.getLsbD_of_ge _ _ (by omega)
      have hy := hhigh j hj (by omega)
      rw [show off + j - w = j - (w - off) by omega] at hy
      have hin : j - (w - off) < m := by omega
      simp [hj, hm, hout, hzero, hin, hy]
  · rw [Nat.testBit_lt_two_pow (hv.trans_le (Nat.pow_le_pow_right (by decide) (not_lt.mp hj)))]
    simp [hj]

end ColumnarStore.Foundation.Packing
