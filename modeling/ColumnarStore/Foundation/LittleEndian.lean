import Mathlib

/-! Machine words as little-endian bytes.

A word of `n` bytes is stored least significant byte first; an array of words is
their bytes one after another. Loading is partial: a load that would run past the
end of the memory it reads has no value. -/
namespace ColumnarStore.Foundation

/-! ### Numbers -/

/-- The low `n` bytes of `x`. -/
def leBytes : Nat → Nat → List UInt8
  | 0, _ => []
  | n + 1, x => UInt8.ofNat x :: leBytes n (x / 256)

/-- The number the bytes spell. -/
def leValue (bytes : List UInt8) : Nat := bytes.foldr (fun b acc => b.toNat + 256 * acc) 0

@[simp] theorem length_leBytes (n x : Nat) : (leBytes n x).length = n := by
  induction n generalizing x with
  | zero => rfl
  | succ n ih => simp [leBytes, ih]

@[simp] theorem leValue_nil : leValue [] = 0 := rfl

@[simp] theorem leValue_cons (b : UInt8) (bytes : List UInt8) :
    leValue (b :: bytes) = b.toNat + 256 * leValue bytes := rfl

theorem leValue_leBytes (n x : Nat) : leValue (leBytes n x) = x % 256 ^ n := by
  induction n generalizing x with
  | zero => simp [leBytes, Nat.mod_one]
  | succ n ih =>
    rw [leBytes, leValue_cons, ih, pow_succ', Nat.mod_mul]
    rfl

theorem leBytes_leValue (bytes : List UInt8) : leBytes bytes.length (leValue bytes) = bytes := by
  induction bytes with
  | nil => rfl
  | cons b rest ih =>
    have hb : b.toNat < 256 := b.toNat_lt
    have hlow : UInt8.ofNat (b.toNat + 256 * leValue rest) = b := by
      apply UInt8.toNat_inj.mp
      rw [UInt8.toNat_ofNat']
      omega
    rw [List.length_cons, leValue_cons, leBytes, hlow,
      show (b.toNat + 256 * leValue rest) / 256 = leValue rest by omega, ih]

theorem leValue_lt (bytes : List UInt8) : leValue bytes < 256 ^ bytes.length := by
  have h := leValue_leBytes bytes.length (leValue bytes)
  rw [leBytes_leValue] at h
  rw [h]
  exact Nat.mod_lt _ (Nat.pow_pos (by decide))

/-! ### Words -/

theorem toNat_ofNat_of_lt {w n : Nat} (h : n < 2 ^ w) : (BitVec.ofNat w n).toNat = n := by
  rw [BitVec.toNat_ofNat, Nat.mod_eq_of_lt h]

/-- Different numbers below 2^w are different words. -/
theorem nodup_map_ofNat {w n : Nat} (hn : n ≤ 2 ^ w) : ((List.range n).map (BitVec.ofNat w)).Nodup := by
  refine List.Nodup.map_on (fun i hi j hj h => ?_) List.nodup_range
  rw [List.mem_range] at hi hj
  have hnat := congrArg BitVec.toNat h
  rwa [toNat_ofNat_of_lt (hi.trans_le hn), toNat_ofNat_of_lt (hj.trans_le hn)] at hnat

/-- `x & (1 << k)` tells bit `k`. -/
theorem and_shiftLeft_ne_zero {w : Nat} (x : BitVec w) {k : Nat} (hk : k < w) :
    ((x &&& 1#w <<< k) != 0) = x.getLsbD k := by
  rw [Bool.eq_iff_iff, bne_iff_ne]
  constructor
  · intro hne
    by_contra hbit
    refine hne (BitVec.eq_of_getLsbD_eq fun j hj => ?_)
    rw [BitVec.getLsbD_and, BitVec.getLsbD_shiftLeft, BitVec.getLsbD_one]
    rcases lt_trichotomy j k with h | rfl | h
    · simp [h]
    · rw [Bool.not_eq_true] at hbit
      rw [hbit, Bool.false_and]
      exact BitVec.getLsbD_zero.symm
    · have hpos : ¬ j - k = 0 := by omega
      simp [hpos]
  · intro hbit hzero
    have h := congrArg (fun w => w.getLsbD k) hzero
    have hpos : 0 < w := by omega
    rw [BitVec.getLsbD_and, hbit, BitVec.getLsbD_shiftLeft] at h
    simp [hk, hpos] at h

/-- So does `(x >> k) & 1`. -/
theorem shiftRight_and_one_ne_zero {w : Nat} (x : BitVec w) (k : Nat) :
    ((x >>> k &&& 1#w) != 0) = x.getLsbD k := by
  by_cases hw : 0 < w
  · have h := and_shiftLeft_ne_zero (x >>> k) hw
    rwa [BitVec.shiftLeft_zero, BitVec.getLsbD_ushiftRight, Nat.add_zero] at h
  · cases Nat.eq_zero_of_not_pos hw
    simp [BitVec.eq_nil x]

def storeWord (n : Nat) (x : BitVec (8 * n)) : List UInt8 := leBytes n x.toNat

/-- The word at the head of a memory, if the memory holds all of it. -/
def loadWord (n : Nat) (memory : List UInt8) : Option (BitVec (8 * n)) :=
  if n ≤ memory.length then some (BitVec.ofNat (8 * n) (leValue (memory.take n))) else none

@[simp] theorem length_storeWord (n : Nat) (x : BitVec (8 * n)) : (storeWord n x).length = n :=
  length_leBytes n x.toNat

theorem ofNat_leValue_storeWord (n : Nat) (x : BitVec (8 * n)) :
    BitVec.ofNat (8 * n) (leValue (storeWord n x)) = x := by
  have hlt : x.toNat < 256 ^ n := by
    have h := x.isLt
    rwa [pow_mul] at h
  rw [storeWord, leValue_leBytes, Nat.mod_eq_of_lt hlt, BitVec.ofNat_toNat, BitVec.setWidth_eq]

theorem storeWord_injective (n : Nat) : Function.Injective (storeWord n) := by
  intro x y h
  rw [← ofNat_leValue_storeWord n x, h, ofNat_leValue_storeWord]

@[simp] theorem loadWord_storeWord (n : Nat) (x : BitVec (8 * n)) (rest : List UInt8) :
    loadWord n (storeWord n x ++ rest) = some x := by
  have htake : (storeWord n x ++ rest).take n = storeWord n x :=
    List.take_left' (length_storeWord n x)
  simp [loadWord, htake, ofNat_leValue_storeWord]

theorem loadWord_none {n : Nat} {memory : List UInt8} (h : memory.length < n) :
    loadWord n memory = none := if_neg (by omega)

/-- A loaded word is stored as the bytes it was loaded from. -/
theorem storeWord_loadWord {n : Nat} {memory : List UInt8} {x : BitVec (8 * n)} (h : loadWord n memory = some x) :
    storeWord n x = memory.take n := by
  unfold loadWord at h
  split at h
  · next hle =>
    cases h
    have hlen : (memory.take n).length = n := by rw [List.length_take, Nat.min_eq_left hle]
    have hlt := leValue_lt (memory.take n)
    have hstore := leBytes_leValue (memory.take n)
    rw [hlen] at hlt hstore
    rwa [storeWord, toNat_ofNat_of_lt (by rwa [pow_mul])]
  · cases h

/-- The word under a cursor, and the memory behind it. -/
def nextWord (n : Nat) (memory : List UInt8) : Option (BitVec (8 * n) × List UInt8) :=
  (loadWord n memory).map fun x => (x, memory.drop n)

@[simp] theorem nextWord_storeWord (n : Nat) (x : BitVec (8 * n)) (rest : List UInt8) :
    nextWord n (storeWord n x ++ rest) = some (x, rest) := by
  rw [nextWord, loadWord_storeWord, Option.map_some, List.drop_left' (length_storeWord n x)]

/-! ### Arrays of words -/

def storeWords (n : Nat) (xs : List (BitVec (8 * n))) : List UInt8 := xs.flatMap (storeWord n)

theorem storeWords_zeros (n count : Nat) : storeWords n (List.replicate count 0) = List.replicate (n * count) 0 := by
  have hword : storeWord n 0 = List.replicate n 0 := by
    have hbytes : ∀ n, leBytes n 0 = List.replicate n 0 := by
      intro n
      induction n with
      | zero => rfl
      | succ n ih =>
        rw [leBytes, Nat.zero_div, ih, List.replicate_succ]
        rfl
    exact hbytes n
  induction count with
  | zero => rfl
  | succ count ih =>
    show storeWord n 0 ++ storeWords n (List.replicate count 0) = _
    rw [ih, hword, List.replicate_append_replicate, Nat.mul_succ, Nat.add_comm n]

/-- The first `count` words of a memory. -/
def loadWords (n : Nat) : Nat → List UInt8 → Option (List (BitVec (8 * n)))
  | 0, _ => some []
  | count + 1, memory => do
    let x ← loadWord n memory
    let xs ← loadWords n count (memory.drop n)
    return x :: xs

@[simp] theorem storeWords_nil (n : Nat) : storeWords n [] = [] := rfl

@[simp] theorem storeWords_cons (n : Nat) (x : BitVec (8 * n)) (xs : List (BitVec (8 * n))) :
    storeWords n (x :: xs) = storeWord n x ++ storeWords n xs := by simp [storeWords]

@[simp] theorem storeWords_append (n : Nat) (xs ys : List (BitVec (8 * n))) :
    storeWords n (xs ++ ys) = storeWords n xs ++ storeWords n ys := by simp [storeWords]

@[simp] theorem length_storeWords (n : Nat) (xs : List (BitVec (8 * n))) :
    (storeWords n xs).length = n * xs.length := by
  induction xs with
  | nil => simp
  | cons x rest ih =>
    rw [storeWords_cons, List.length_append, length_storeWord, ih, List.length_cons]
    ring

@[simp] theorem loadWords_storeWords (n : Nat) (xs : List (BitVec (8 * n))) (rest : List UInt8) :
    loadWords n xs.length (storeWords n xs ++ rest) = some xs := by
  induction xs with
  | nil => rfl
  | cons x tail ih =>
    have hdrop : (storeWord n x ++ (storeWords n tail ++ rest)).drop n = storeWords n tail ++ rest :=
      List.drop_left' (length_storeWord n x)
    simp [loadWords, hdrop, ih]

theorem loadWords_storeWords_self (n : Nat) (xs : List (BitVec (8 * n))) :
    loadWords n xs.length (storeWords n xs) = some xs := by
  have h := loadWords_storeWords n xs []
  rwa [List.append_nil] at h

theorem length_loadWords {n count : Nat} {memory : List UInt8} {xs : List (BitVec (8 * n))}
    (h : loadWords n count memory = some xs) : xs.length = count := by
  induction count generalizing memory xs with
  | zero =>
    cases h
    rfl
  | succ count ih =>
    simp only [loadWords, Option.bind_eq_bind, Option.bind_eq_some_iff] at h
    obtain ⟨x, -, rest, hrest, h⟩ := h
    cases h
    rw [List.length_cons, ih hrest]

/-- A memory of enough bytes can be loaded. -/
theorem exists_loadWords {n count : Nat} {memory : List UInt8} (h : n * count ≤ memory.length) :
    ∃ xs, loadWords n count memory = some xs := by
  induction count generalizing memory with
  | zero => exact ⟨[], rfl⟩
  | succ count ih =>
    rw [Nat.mul_succ] at h
    have hrest : n * count ≤ (memory.drop n).length := by
      rw [List.length_drop]
      omega
    obtain ⟨xs, hxs⟩ := ih hrest
    exact ⟨_, by rw [loadWords, loadWord, if_pos (by omega), hxs]; rfl⟩

/-- Loaded words are stored as the bytes they were loaded from. -/
theorem storeWords_loadWords {n count : Nat} {memory : List UInt8} {xs : List (BitVec (8 * n))}
    (h : loadWords n count memory = some xs) : storeWords n xs = memory.take (n * count) := by
  induction count generalizing memory xs with
  | zero =>
    cases h
    simp
  | succ count ih =>
    simp only [loadWords, Option.bind_eq_bind, Option.bind_eq_some_iff] at h
    obtain ⟨x, hx, rest, hrest, h⟩ := h
    cases h
    rw [storeWords_cons, storeWord_loadWord hx, ih hrest, Nat.mul_succ, Nat.add_comm (n * count), List.take_add]

/-- A load that returns stays within the memory. -/
theorem le_length_of_loadWords {n count : Nat} {memory : List UInt8} {xs : List (BitVec (8 * n))}
    (h : loadWords n count memory = some xs) : n * count ≤ memory.length := by
  have hlen := congrArg List.length (storeWords_loadWords h)
  rw [length_storeWords, length_loadWords h, List.length_take] at hlen
  omega

theorem storeWords_injective {n : Nat} (hn : 0 < n) : Function.Injective (storeWords n) := by
  intro xs ys h
  have hlen : xs.length = ys.length := by
    have := congrArg List.length h
    simp only [length_storeWords] at this
    exact Nat.eq_of_mul_eq_mul_left hn this
  have hx := loadWords_storeWords n xs []
  rw [h, hlen, loadWords_storeWords] at hx
  exact (Option.some.inj hx).symm

theorem storeWords_drop (n : Nat) (xs : List (BitVec (8 * n))) (k : Nat) :
    (storeWords n xs).drop (n * k) = storeWords n (xs.drop k) := by
  induction k generalizing xs with
  | zero => simp
  | succ k ih =>
    cases xs with
    | nil => simp
    | cons x rest =>
      rw [storeWords_cons, List.drop_succ_cons, ← ih rest, Nat.mul_succ, Nat.add_comm (n * k),
        ← List.drop_drop, List.drop_left' (length_storeWord n x)]

/-- A load from the `k`-th word of an array. -/
theorem loadWord_storeWords {n : Nat} {xs : List (BitVec (8 * n))} {k : Nat} {x : BitVec (8 * n)}
    (hx : xs[k]? = some x) (rest : List UInt8) :
    loadWord n ((storeWords n xs ++ rest).drop (n * k)) = some x := by
  obtain ⟨hk, rfl⟩ := List.getElem?_eq_some_iff.mp hx
  have hle : n * k ≤ (storeWords n xs).length := by
    rw [length_storeWords]
    exact Nat.mul_le_mul_left n hk.le
  rw [List.drop_append_of_le_length hle, storeWords_drop, List.drop_eq_getElem_cons hk,
    storeWords_cons, List.append_assoc, loadWord_storeWord]

theorem loadWord_storeWords_self {n : Nat} {xs : List (BitVec (8 * n))} {k : Nat} {x : BitVec (8 * n)}
    (hx : xs[k]? = some x) : loadWord n ((storeWords n xs).drop (n * k)) = some x := by
  have hload := loadWord_storeWords hx []
  rwa [List.append_nil] at hload

end ColumnarStore.Foundation
