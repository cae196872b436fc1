import ColumnarStore.BloomFilter

/-! Strings in a filter.

`AddString` and `MightContainString` are given a pointer and a length, and hash the eight
bytes at the pointer whatever the length. A string of eight bytes or more is found
wherever it is; of a shorter one, bytes that are not its own decide
(`string_membership_iff`). That they can make a difference is because the hash is
injective: two words have different hashes, and some filter tells these apart. -/
namespace ColumnarStore.BloomFilter
open Foundation

/-! ### The operations -/

/-- `reinterpret_cast<const uint64_t*>(data)[0]`. -/
def stringWord (memory : List UInt8) : Outcome (BitVec 64) := orFault .outOfBounds (loadWord 8 memory)

/-- The length is not used. -/
def addString (bf : BloomFilter) (memory : List UInt8) (_len : Nat) : Outcome BloomFilter := do
  let val ← stringWord memory
  bf.add val

def mightContainString (bf : BloomFilter) (memory : List UInt8) (_len : Nat) : Outcome Bool := do
  let val ← stringWord memory
  bf.mightContain val

/-- A call that adds a value, or a string in memory. -/
inductive AddCall where
  | add (t : DataType) (value : Native t)
  | addString (memory : List UInt8) (len : Nat)

def AddCall.apply (bf : BloomFilter) : AddCall → Outcome BloomFilter
  | add _ value => bf.add (key value)
  | addString memory len => bf.addString memory len

/-- There is a word for each bit, unless nothing is hashed. -/
def HasWords (bf : BloomFilter) : Prop := bf.numBits + 63 < 2 ^ 64 ∨ bf.numHashes = 0

/-- The string is found in memory `q` once it was added in memory `p`, to any filter, with
any bytes behind it in either, and after any further additions. -/
def FindsString (s : List UInt8) : Prop :=
  ∀ (bf : BloomFilter) (p q : List UInt8), 1 ≤ bf.numBits → bf.HasWords → s <+: p → s <+: q →
    8 ≤ p.length → 8 ≤ q.length →
    ∃ bf₁, bf.addString p s.length = .ok bf₁ ∧ ∀ (further : List AddCall) (bf₂ : BloomFilter),
      further.foldlM AddCall.apply bf₁ = .ok bf₂ → bf₂.mightContainString q s.length = .ok true

/-! ### Additions keep what is set -/

/-- The parameters are the same, and no bit was cleared. -/
structure Grown (bf bf' : BloomFilter) : Prop where
  numBits : bf'.numBits = bf.numBits
  numHashes : bf'.numHashes = bf.numHashes
  testBit : ∀ q, bf.testBit q = true → bf'.testBit q = true

theorem Grown.trans {a b c : BloomFilter} (h : Grown a b) (h' : Grown b c) : Grown a c :=
  ⟨h'.numBits.trans h.numBits, h'.numHashes.trans h.numHashes, fun q hq => h'.testBit q (h.testBit q hq)⟩

/-- An addition sets the probes of its key. -/
theorem add_eq_ok {bf bf' : BloomFilter} {val : BitVec 64} (h : bf.add val = .ok bf') :
    Grown bf bf' ∧ (∀ p ∈ probes bf.numBits bf.numHashes val, bf'.testBit p = true) ∧
      bf.boundedProbes val = .ok (probes bf.numBits bf.numHashes val) := by
  obtain ⟨bits, hbits, hset⟩ := bind_eq_ok.mp h
  cases hset
  obtain ⟨-, hin, rfl⟩ := boundedProbes_eq_ok.mp hbits
  obtain ⟨hnumBits, hnumHashes, htest⟩ := setBits_spec bf _ hin
  exact ⟨⟨hnumBits, hnumHashes, fun q hq => (htest q).mpr (.inl hq)⟩, fun p hp => (htest p).mpr (.inr hp), hbits⟩

theorem grown_further {bf bf' : BloomFilter} {further : List AddCall}
    (h : further.foldlM AddCall.apply bf = .ok bf') : Grown bf bf' := by
  have hcall : ∀ call ∈ further, ∀ b b', Grown bf b → call.apply b = .ok b' → Grown bf b' := by
    intro call _ b b' hb hstep
    cases call with
    | add t value => exact hb.trans (add_eq_ok hstep).1
    | addString memory len =>
      obtain ⟨val, -, hadd⟩ := bind_eq_ok.mp hstep
      exact hb.trans (add_eq_ok hadd).1
  exact foldlM_preserves hcall ⟨rfl, rfl, fun _ h => h⟩ h

/-- An added key is found from then on. -/
theorem mightContain_of_grown {bf bf₁ bf₂ : BloomFilter} {val : BitVec 64} (hadd : bf.add val = .ok bf₁)
    (hgrown : Grown bf₁ bf₂) : bf₂.mightContain val = .ok true := by
  obtain ⟨hfirst, hprobes, hbounded⟩ := add_eq_ok hadd
  have hsame := hfirst.trans hgrown
  have hlen : bf₂.bits.length = bf.bits.length := by rw [bf₂.sized, bf.sized, hsame.numBits]
  have hbounded₂ : bf₂.boundedProbes val = .ok (probes bf.numBits bf.numHashes val) := by
    rw [← hbounded]
    simp only [boundedProbes, hsame.numBits, hsame.numHashes, hlen]
  rw [mightContain, hbounded₂, bind_ok, pure_eq_ok, List.all_eq_true.mpr fun p hp => hgrown.testBit p (hprobes p hp)]

/-! ### The hash is injective -/

/-- Shifting by more than half the width and folding in undoes itself. -/
theorem xorShift_injective : Function.Injective fun h : BitVec 64 => h ^^^ h >>> 33 := by
  have htwice : Function.LeftInverse (fun h : BitVec 64 => h ^^^ h >>> 33) fun h => h ^^^ h >>> 33 := by
    intro h
    refine BitVec.eq_of_getLsbD_eq fun i hi => ?_
    have hpast : h.getLsbD (33 + (33 + i)) = false := BitVec.getLsbD_of_ge _ _ (by omega)
    simp only [BitVec.getLsbD_xor, BitVec.getLsbD_ushiftRight, hpast, Bool.xor_false, Bool.xor_assoc, Bool.xor_self]
  exact htwice.injective

/-- A factor with an inverse can be divided out again. -/
theorem mul_injective (c inverse : BitVec 64) (h : c * inverse = 1) :
    Function.Injective fun x : BitVec 64 => x * c := by
  refine Function.LeftInverse.injective (g := fun x => x * inverse) fun x => ?_
  show x * c * inverse = x
  rw [BitVec.mul_assoc, h]
  exact BitVec.mul_one x

theorem murmurHash64_injective (seed : BitVec 64) : Function.Injective fun h => murmurHash64 h seed := by
  have hseed : Function.Injective fun h : BitVec 64 => h ^^^ seed := fun a b h => BitVec.xor_left_inj seed |>.mp h
  have hfirst := mul_injective 0xff51afd7ed558ccd 0x4f74430c22a54005 (by decide)
  have hsecond := mul_injective 0xc4ceb9fe1a85ec53 0x9cb4b2f8129337db (by decide)
  exact xorShift_injective.comp (hsecond.comp (xorShift_injective.comp (hfirst.comp (xorShift_injective.comp hseed))))

/-- Two numbers below 2^64 that agree modulo 2^32 and modulo 2^32 + 1 are the same. -/
theorem eq_of_two_residues {a b : Nat} (ha : a < 2 ^ 64) (hb : b < 2 ^ 64) (h : a % 2 ^ 32 = b % 2 ^ 32)
    (h' : a % (2 ^ 32 + 1) = b % (2 ^ 32 + 1)) : a = b := by
  have hcoprime : Nat.Coprime (2 ^ 32) (2 ^ 32 + 1) := by decide +kernel
  have hboth := (Nat.modEq_and_modEq_iff_modEq_mul hcoprime).mp ⟨h, h'⟩
  have hwide : 2 ^ 64 ≤ 2 ^ 32 * (2 ^ 32 + 1) := by decide
  exact hboth.eq_of_lt_of_lt (ha.trans_le hwide) (hb.trans_le hwide)

/-- A filter with one hash that finds a word when only another one was added. -/
theorem probe_eq_of_found {m : Nat} (hm : 0 < m) (hfits : m + 63 < 2 ^ 64) {x y : BitVec 64} {bf : BloomFilter}
    (hadd : (ofSize m 1).add x = .ok bf) (hfound : bf.mightContain y = .ok true) :
    (hash y 0).toNat % m = (hash x 0).toNat % m := by
  obtain ⟨hbits, hhashes, hholds⟩ := (holds_ofSize m 1).add hadd
  obtain ⟨found, hreturns, hiff⟩ := hholds.mightContain (hbits.symm ▸ hm) (.inl (by rw [hbits]; exact hfits)) y
  cases hfound.symm.trans hreturns
  obtain ⟨k, hk, hprobe⟩ := hiff.mp rfl _ (by rw [hbits, hhashes]; exact List.mem_singleton_self _)
  cases List.mem_singleton.mp hk
  rw [hbits, hhashes] at hprobe
  exact List.mem_singleton.mp hprobe

/-! ### Strings -/

theorem stringWord_eq_ok {memory : List UInt8} (h : 8 ≤ memory.length) :
    ∃ val, stringWord memory = .ok val ∧ storeWord 8 val = memory.take 8 := by
  have hload : loadWord 8 memory = some _ := if_pos h
  exact ⟨_, by rw [stringWord, hload, orFault_some], storeWord_loadWord hload⟩

/-- A short string with two continuations, and what they would have to be for the string
to be found. -/
theorem long_of_findsString {s : List UInt8} (h : FindsString s) : 8 ≤ s.length := by
  by_contra hshort
  have hlen : ∀ b : UInt8, (s ++ List.replicate (8 - s.length) b).length = 8 := by
    intro b
    rw [List.length_append, List.length_replicate]
    omega
  obtain ⟨x, hx, hxBytes⟩ := stringWord_eq_ok (hlen 0).ge
  obtain ⟨y, hy, hyBytes⟩ := stringWord_eq_ok (hlen 1).ge
  have hprobe : ∀ m, 0 < m → m + 63 < 2 ^ 64 → (hash y 0).toNat % m = (hash x 0).toNat % m := by
    intro m hm hfits
    obtain ⟨bf, hadd, hfound⟩ := h (ofSize m 1) _ _ hm (.inl hfits) (List.prefix_append s _) (List.prefix_append s _)
      (hlen 0).ge (hlen 1).ge
    have htest := hfound [] bf rfl
    rw [addString, hx, bind_ok] at hadd
    rw [mightContainString, hy, bind_ok] at htest
    exact probe_eq_of_found hm hfits hadd htest
  have hhash : hash y 0 = hash x 0 := BitVec.eq_of_toNat_eq
    (eq_of_two_residues (hash y 0).isLt (hash x 0).isLt (hprobe _ (by decide) (by decide))
      (hprobe _ (by decide) (by decide)))
  have hword : y = x := by
    refine murmurHash64_injective 0x9e3779b97f4a7c15 ?_
    simpa [hash] using hhash
  rw [hword, hxBytes, List.take_of_length_le (hlen 0).le, List.take_of_length_le (hlen 1).le,
    List.append_cancel_left_eq] at hyBytes
  obtain ⟨k, hk⟩ : ∃ k, 8 - s.length = k + 1 := ⟨7 - s.length, by omega⟩
  rw [hk, List.replicate_succ, List.replicate_succ] at hyBytes
  cases (List.cons.inj hyBytes).1

/-- **A string is found wherever it is, whatever follows it, exactly when it has eight bytes
or more; and in a filter without words no string can be added at all.** -/
theorem string_membership_iff (s : List UInt8) :
    (FindsString s ↔ 8 ≤ s.length) ∧
      ∀ bf : BloomFilter, 1 ≤ bf.numBits → bf.numBits < 2 ^ 64 → ¬ bf.HasWords →
        ∀ (p : List UInt8) (bf' : BloomFilter), bf.addString p s.length ≠ .ok bf' := by
  refine ⟨⟨long_of_findsString, fun hlong bf p q hpos hwords hp hq hpLen hqLen => ?_⟩,
    fun bf hpos hlt hnone p bf' hadd => ?_⟩
  · have hsame : stringWord q = stringWord p := by
      rw [List.prefix_iff_eq_take] at hp hq
      have htake : q.take 8 = p.take 8 := by
        rw [← Nat.min_eq_left hlong, ← List.take_take, ← List.take_take, ← hp, ← hq]
      rw [stringWord, stringWord, loadWord, loadWord, if_pos hpLen, if_pos hqLen, htake]
    obtain ⟨val, hval, -⟩ := stringWord_eq_ok hpLen
    have hadd : bf.addString p s.length = .ok ((probes bf.numBits bf.numHashes val).foldl setBit bf) := by
      rw [addString, hval, bind_ok, add, boundedProbes_ok hpos hwords, bind_ok, pure_eq_ok]
    refine ⟨_, hadd, fun further bf₂ hfurther => ?_⟩
    rw [mightContainString, hsame, hval, bind_ok]
    rw [addString, hval, bind_ok] at hadd
    exact mightContain_of_grown hadd (grown_further hfurther)
  · obtain ⟨hwide, hhashes⟩ := not_or.mp hnone
    obtain ⟨val, -, hadd⟩ := bind_eq_ok.mp hadd
    obtain ⟨-, hin, -⟩ := boundedProbes_eq_ok.mp (add_eq_ok hadd).2.2
    have hfirst : (hash val 0).toNat % bf.numBits ∈ probes bf.numBits bf.numHashes val :=
      List.mem_map_of_mem (List.mem_range.mpr (Nat.pos_of_ne_zero hhashes))
    have hword := hin _ hfirst
    rw [bf.sized, wordCount_of_ge hlt (not_lt.mp hwide)] at hword
    exact Nat.not_lt_zero _ hword

/-- Eight letters are a word of their own. -/
theorem eightLetters_found : FindsString [97, 98, 99, 100, 101, 102, 103, 104] :=
  (string_membership_iff [97, 98, 99, 100, 101, 102, 103, 104]).1.mpr (by decide)

/-- The string `a`, followed by zeros where it is added and by a one where it is tested. -/
theorem oneLetter_not_found : ∃ bf, (ofSize 64 2).addString [97, 0, 0, 0, 0, 0, 0, 0] 1 = .ok bf ∧
    bf.mightContainString [97, 1, 0, 0, 0, 0, 0, 0] 1 = .ok false :=
  ⟨_, rfl, by decide +kernel⟩

end ColumnarStore.BloomFilter
