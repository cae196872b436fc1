import ColumnarStore.Types
import ColumnarStore.Foundation.LittleEndian
import ColumnarStore.Foundation.Outcome

/-! Bloom filters.

A filter is an array of bits and a number of hashes; the array is as long as the
constructor makes it for the filter's number of bits, which every operation keeps. A key
is a value padded with zeros to 64 bits, whatever the type it was added as. `Holds` is
what a filter is for: its set bits are the probes of the keys added to it and no others. -/
namespace ColumnarStore
open Foundation

/-- The words for a number of bits. The sum has 64 bits, and no room for the last 63 numbers. -/
def BloomFilter.wordCount (numBits : Nat) : Nat := (numBits + 63) % 2 ^ 64 / 64

structure BloomFilter where
  numBits : Nat
  numHashes : Nat
  bits : List (BitVec 64)
  sized : bits.length = BloomFilter.wordCount numBits
  deriving DecidableEq

namespace BloomFilter

def ofSize (numBits : Nat) (numHashes : Nat := kBloomHashFunctions) : BloomFilter :=
  ⟨numBits, numHashes, List.replicate (wordCount numBits) 0, List.length_replicate⟩

/-- The filter the default constructor makes: nothing was added to it. -/
def empty : BloomFilter := ofSize kBloomFilterBits kBloomHashFunctions

/-- The array in bytes. -/
def size (bf : BloomFilter) : Nat := bf.bits.length * 8

/-! ### Hashing -/

def murmurHash64 (h seed : BitVec 64) : BitVec 64 :=
  let h := h ^^^ seed
  let h := h ^^^ h >>> 33
  let h := h * 0xff51afd7ed558ccd
  let h := h ^^^ h >>> 33
  let h := h * 0xc4ceb9fe1a85ec53
  h ^^^ h >>> 33

/-- The `i`-th hash of a key. -/
def hash (val : BitVec 64) (i : Nat) : BitVec 64 :=
  murmurHash64 val 0x9e3779b97f4a7c15 + BitVec.ofNat 64 i * murmurHash64 val 0xbf58476d1ce4e5b9

/-- The bits a key sets, and the bits a test of it reads. -/
def probes (numBits numHashes : Nat) (val : BitVec 64) : List Nat :=
  (List.range numHashes).map fun i => (hash val i).toNat % numBits

/-- The bytes of a value behind each other in a zeroed word. -/
def key {t : DataType} (value : Native t) : BitVec 64 := value.setWidth 64

/-! ### Adding and testing -/

def setBit (bf : BloomFilter) (bit : Nat) : BloomFilter :=
  {bf with
    bits := bf.bits.modify (bit / 64) (· ||| 1#64 <<< (bit % 64))
    sized := by rw [List.length_modify, bf.sized]}

def testBit (bf : BloomFilter) (bit : Nat) : Bool :=
  (bf.bits.getD (bit / 64) 0 &&& 1#64 <<< (bit % 64)) != 0

/-- The probes of a key. `hash % num_bits_` has no value in a filter without bits, and an
array that is shorter than its bits is read and written past its end. -/
def boundedProbes (bf : BloomFilter) (val : BitVec 64) : Outcome (List Nat) :=
  if bf.numBits = 0 ∧ bf.numHashes ≠ 0 then .error .divisionByZero
  else if ∃ bit ∈ probes bf.numBits bf.numHashes val, bf.bits.length ≤ bit / 64 then .error .outOfBounds
  else .ok (probes bf.numBits bf.numHashes val)

def add (bf : BloomFilter) (val : BitVec 64) : Outcome BloomFilter := do
  let bits ← bf.boundedProbes val
  return bits.foldl setBit bf

def mightContain (bf : BloomFilter) (val : BitVec 64) : Outcome Bool := do
  let bits ← bf.boundedProbes val
  return bits.all bf.testBit

/-- One `Add` after another. -/
def addAll (bf : BloomFilter) (keys : List (BitVec 64)) : Outcome BloomFilter := keys.foldlM add bf

/-! ### The stored form -/

def write (bf : BloomFilter) : List UInt8 :=
  storeWord 8 (BitVec.ofNat 64 bf.numBits) ++ storeWord 8 (BitVec.ofNat 64 bf.numHashes) ++
    storeWords 8 bf.bits

def read (data : List UInt8) : Outcome BloomFilter :=
  match nextWord 8 data with
  | none => .error .outOfBounds
  | some (numBits, ptr) =>
    match nextWord 8 ptr with
    | none => .error .outOfBounds
    | some (numHashes, ptr) =>
      match h : loadWords 8 (wordCount numBits.toNat) ptr with
      | none => .error .outOfBounds
      | some bits => .ok ⟨numBits.toNat, numHashes.toNat, bits, length_loadWords h⟩

/-- What a segment gives back for a filter it was given: one without words is not written. -/
def restored (bf : BloomFilter) : BloomFilter := if bf.bits = [] then empty else bf

/-- A stored filter comes back. -/
theorem read_write {bf : BloomFilter} (hbits : bf.numBits < 2 ^ 64) (hhashes : bf.numHashes < 2 ^ 64) :
    read bf.write = .ok bf := by
  obtain ⟨numBits, numHashes, bits, sized⟩ := bf
  have hnb : (BitVec.ofNat 64 numBits).toNat = numBits := toNat_ofNat_of_lt hbits
  have hnh : (BitVec.ofNat 64 numHashes).toNat = numHashes := toNat_ofNat_of_lt hhashes
  have hload : loadWords 8 (wordCount numBits) (storeWords 8 bits) = some bits := by
    have h := loadWords_storeWords_self 8 bits
    rwa [sized] at h
  simp only [read, write, List.append_assoc, nextWord_storeWord]
  split
  · next h =>
    rw [hnb, hload] at h
    cases h
  · next bits' h =>
    rw [hnb, hload] at h
    cases h
    simp only [hnb, hnh]

theorem read_numBits_lt {data : List UInt8} {bf : BloomFilter} (h : read data = .ok bf) : bf.numBits < 2 ^ 64 := by
  unfold read at h
  split at h
  · cases h
  · split at h
    · cases h
    · split at h
      · cases h
      · cases h
        exact BitVec.isLt _

/-! ### The bits of a filter -/

theorem testBit_eq (bf : BloomFilter) (q : Nat) :
    bf.testBit q = (bf.bits.getD (q / 64) 0).getLsbD (q % 64) :=
  and_shiftLeft_ne_zero _ (Nat.mod_lt q (by decide))

@[simp] theorem setBit_numBits (bf : BloomFilter) (b : Nat) : (bf.setBit b).numBits = bf.numBits := rfl

@[simp] theorem setBit_numHashes (bf : BloomFilter) (b : Nat) :
    (bf.setBit b).numHashes = bf.numHashes := rfl

@[simp] theorem setBit_length (bf : BloomFilter) (b : Nat) : (bf.setBit b).bits.length = bf.bits.length :=
  List.length_modify ..

theorem testBit_setBit {bf : BloomFilter} {b : Nat} (hin : b / 64 < bf.bits.length) (q : Nat) :
    (bf.setBit b).testBit q = (bf.testBit q || decide (q = b)) := by
  rw [testBit_eq, testBit_eq]
  by_cases hword : b / 64 = q / 64
  · have hbit : (1#64 <<< (b % 64)).getLsbD (q % 64) = decide (q = b) := by
      have hq : q % 64 < 64 := Nat.mod_lt q (by decide)
      rw [BitVec.getLsbD_shiftLeft, BitVec.getLsbD_one, Bool.eq_iff_iff]
      simp
      omega
    simp [setBit, List.getD_eq_getElem?_getD, ← hword, hin, hbit]
  · have hne : q ≠ b := fun h => hword (by rw [h])
    simp [setBit, List.getD_eq_getElem?_getD, hword, hne]

/-! ### What a filter holds -/

/-- The set bits are the probes of the keys. -/
def Holds (bf : BloomFilter) (keys : List (BitVec 64)) : Prop :=
  ∀ q, bf.testBit q = true ↔ ∃ val ∈ keys, q ∈ probes bf.numBits bf.numHashes val

theorem holds_ofSize (numBits numHashes : Nat) : (ofSize numBits numHashes).Holds [] := by
  intro q
  rw [testBit_eq, ofSize, List.getD_eq_getElem?_getD, List.getElem?_replicate]
  split <;> simp

theorem setBits_spec (bf : BloomFilter) (positions : List Nat)
    (h : ∀ p ∈ positions, p / 64 < bf.bits.length) :
    (positions.foldl setBit bf).numBits = bf.numBits ∧
      (positions.foldl setBit bf).numHashes = bf.numHashes ∧
      ∀ q, (positions.foldl setBit bf).testBit q = true ↔ bf.testBit q = true ∨ q ∈ positions := by
  induction positions generalizing bf with
  | nil => simp
  | cons p rest ih =>
    have hp : p / 64 < bf.bits.length := h p List.mem_cons_self
    obtain ⟨hbits, hhashes, htest⟩ := ih (bf.setBit p) fun r hr => by
      rw [setBit_length]
      exact h r (List.mem_cons_of_mem _ hr)
    refine ⟨hbits, hhashes, fun q => ?_⟩
    rw [List.foldl_cons, htest, testBit_setBit hp, Bool.or_eq_true, decide_eq_true_eq, or_assoc,
      List.mem_cons]

theorem boundedProbes_eq_ok {bf : BloomFilter} {val : BitVec 64} {bits : List Nat} :
    bf.boundedProbes val = .ok bits ↔ (bf.numBits ≠ 0 ∨ bf.numHashes = 0) ∧
      (∀ p ∈ probes bf.numBits bf.numHashes val, p / 64 < bf.bits.length) ∧
      probes bf.numBits bf.numHashes val = bits := by
  unfold boundedProbes
  split
  · next hnone => simp [hnone]
  · next hsome =>
    have hsome : bf.numBits ≠ 0 ∨ bf.numHashes = 0 := by
      by_contra hnone
      exact hsome ⟨by tauto, by tauto⟩
    split
    · next hout =>
      obtain ⟨p, hp, hlen⟩ := hout
      simp only [reduceCtorEq, false_iff, not_and]
      exact fun _ hin => absurd (hin p hp) (not_lt.mpr hlen)
    · next hin =>
      push Not at hin
      simp [hsome]
      exact fun _ => hin

theorem mem_probes_lt {numBits numHashes : Nat} (hpos : 0 < numBits) {val : BitVec 64} {p : Nat}
    (hp : p ∈ probes numBits numHashes val) : p < numBits := by
  obtain ⟨i, -, rfl⟩ := List.mem_map.mp hp
  exact Nat.mod_lt _ hpos

/-- The sum for the number of words fits. -/
theorem wordCount_of_lt {numBits : Nat} (h : numBits + 63 < 2 ^ 64) : wordCount numBits = (numBits + 63) / 64 := by
  rw [wordCount, Nat.mod_eq_of_lt h]

/-- The last 63 numbers of bits get no words. -/
theorem wordCount_of_ge {numBits : Nat} (hlt : numBits < 2 ^ 64) (h : 2 ^ 64 ≤ numBits + 63) :
    wordCount numBits = 0 := by
  rw [wordCount]
  omega

theorem restored_of_lt {bf : BloomFilter} (hpos : 0 < bf.numBits) (hfits : bf.numBits + 63 < 2 ^ 64) :
    bf.restored = bf := by
  refine if_neg fun hnone => ?_
  have hlen := bf.sized
  rw [hnone, wordCount_of_lt hfits, List.length_nil] at hlen
  omega

theorem restored_of_ge {bf : BloomFilter} (hlt : bf.numBits < 2 ^ 64) (h : 2 ^ 64 ≤ bf.numBits + 63) :
    bf.restored = empty :=
  if_pos (List.eq_nil_of_length_eq_zero (bf.sized.trans (wordCount_of_ge hlt h)))

/-- What a segment gives back for a filter has words, whatever the filter was. -/
theorem restored_words (bf : BloomFilter) : bf.restored.bits ≠ [] := by
  unfold restored
  split
  · decide
  · next hwords => exact hwords

theorem boundedProbes_ok {bf : BloomFilter} (hpos : 0 < bf.numBits)
    (hfits : bf.numBits + 63 < 2 ^ 64 ∨ bf.numHashes = 0) (val : BitVec 64) :
    bf.boundedProbes val = .ok (probes bf.numBits bf.numHashes val) := by
  refine boundedProbes_eq_ok.mpr ⟨.inl (by omega), fun p hp => ?_, rfl⟩
  rcases hfits with hfits | hnone
  · have hlt := mem_probes_lt hpos hp
    rw [bf.sized, wordCount_of_lt hfits]
    omega
  · simp [probes, hnone] at hp

/-- A filter with words can be asked for every key. -/
theorem mightContain_ok {bf : BloomFilter} (hwords : bf.bits ≠ []) (hbits : bf.numBits < 2 ^ 64) (val : BitVec 64) :
    ∃ found, bf.mightContain val = .ok found := by
  have hlen := bf.sized
  have hpos := List.length_pos_iff_ne_nil.mpr hwords
  have hfits : bf.numBits + 63 < 2 ^ 64 := by
    by_contra hout
    rw [wordCount_of_ge hbits (not_lt.mp hout)] at hlen
    omega
  rw [wordCount_of_lt hfits] at hlen
  have hprobes := boundedProbes_ok (by omega) (.inl hfits) val
  rw [mightContain, hprobes]
  exact ⟨_, rfl⟩

theorem Holds.add {bf bf' : BloomFilter} {keys : List (BitVec 64)} {val : BitVec 64}
    (h : bf.Holds keys) (hadd : bf.add val = .ok bf') :
    bf'.numBits = bf.numBits ∧ bf'.numHashes = bf.numHashes ∧ bf'.Holds (keys ++ [val]) := by
  obtain ⟨bits, hprobes, hset⟩ := bind_eq_ok.mp hadd
  cases hset
  obtain ⟨-, hin, rfl⟩ := boundedProbes_eq_ok.mp hprobes
  obtain ⟨hbits, hhashes, htest⟩ := setBits_spec bf _ hin
  refine ⟨hbits, hhashes, fun q => ?_⟩
  rw [htest, h q, hbits, hhashes]
  constructor
  · intro h
    rcases h with ⟨k, hk, hq⟩ | hq
    · exact ⟨k, List.mem_append_left _ hk, hq⟩
    · exact ⟨val, List.mem_append_right _ (by simp), hq⟩
  · intro h
    obtain ⟨k, hk, hq⟩ := h
    rcases List.mem_append.mp hk with hk | hk
    · exact .inl ⟨k, hk, hq⟩
    · cases List.mem_singleton.mp hk
      exact .inr hq

theorem Holds.addAll {bf bf' : BloomFilter} {keys added : List (BitVec 64)} (h : bf.Holds keys)
    (hadd : bf.addAll added = .ok bf') :
    bf'.numBits = bf.numBits ∧ bf'.numHashes = bf.numHashes ∧ bf'.Holds (keys ++ added) := by
  induction added generalizing bf keys with
  | nil =>
    cases hadd
    exact ⟨rfl, rfl, by rwa [List.append_nil]⟩
  | cons val rest ih =>
    rw [BloomFilter.addAll, List.foldlM_cons] at hadd
    obtain ⟨bf₁, hfirst, hrest⟩ := bind_eq_ok.mp hadd
    obtain ⟨hbits₁, hhashes₁, hholds₁⟩ := h.add hfirst
    obtain ⟨hbits, hhashes, hholds⟩ := ih hholds₁ hrest
    refine ⟨hbits.trans hbits₁, hhashes.trans hhashes₁, ?_⟩
    rwa [List.append_assoc] at hholds

/-- After any additions to a fresh filter its bits are the probes of the keys added. -/
theorem holds_addAll {numBits numHashes : Nat} {keys : List (BitVec 64)} {bf : BloomFilter}
    (h : (ofSize numBits numHashes).addAll keys = .ok bf) :
    bf.numBits = numBits ∧ bf.numHashes = numHashes ∧ bf.Holds keys :=
  (holds_ofSize numBits numHashes).addAll h

/-- With a bit to hash to, and words for all of them unless nothing is hashed, every key
can be added. -/
theorem Holds.addAll_ok {bf : BloomFilter} {keys : List (BitVec 64)} (h : bf.Holds keys)
    (hpos : 0 < bf.numBits) (hfits : bf.numBits + 63 < 2 ^ 64 ∨ bf.numHashes = 0)
    (added : List (BitVec 64)) : ∃ bf', bf.addAll added = .ok bf' := by
  induction added generalizing bf keys with
  | nil => exact ⟨bf, rfl⟩
  | cons val rest ih =>
    have hadd : bf.add val = .ok ((probes bf.numBits bf.numHashes val).foldl setBit bf) := by
      rw [BloomFilter.add, boundedProbes_ok hpos hfits]
      rfl
    obtain ⟨hbits, hhashes, hholds⟩ := h.add hadd
    obtain ⟨bf', hrest⟩ := ih hholds (by rwa [hbits]) (by rwa [hbits, hhashes])
    exact ⟨bf', by rw [BloomFilter.addAll, List.foldlM_cons, hadd, bind_ok]; exact hrest⟩

/-- A test finds a key exactly when each of its probes is one of an added key. -/
theorem Holds.mightContain {bf : BloomFilter} {keys : List (BitVec 64)} (h : bf.Holds keys)
    (hpos : 0 < bf.numBits) (hfits : bf.numBits + 63 < 2 ^ 64 ∨ bf.numHashes = 0) (val : BitVec 64) :
    ∃ found, bf.mightContain val = .ok found ∧
      (found = true ↔ ∀ p ∈ probes bf.numBits bf.numHashes val,
        ∃ k ∈ keys, p ∈ probes bf.numBits bf.numHashes k) := by
  refine ⟨_, by rw [BloomFilter.mightContain, boundedProbes_ok hpos hfits, bind_ok]; rfl, ?_⟩
  rw [List.all_eq_true]
  exact forall₂_congr fun p _ => h p

/-- An added key is found. -/
theorem Holds.mightContain_mem {bf : BloomFilter} {keys : List (BitVec 64)} (h : bf.Holds keys)
    (hpos : 0 < bf.numBits) (hfits : bf.numBits + 63 < 2 ^ 64 ∨ bf.numHashes = 0) {val : BitVec 64}
    (hval : val ∈ keys) :
    bf.mightContain val = .ok true := by
  obtain ⟨found, hfound, hiff⟩ := h.mightContain hpos hfits val
  rw [hfound, hiff.mpr fun p hp => ⟨val, hval, hp⟩]

/-- A filter nothing was added to finds nothing. -/
theorem mightContain_empty (val : BitVec 64) : empty.mightContain val = .ok false := by
  obtain ⟨found, hfound, hiff⟩ :=
    (holds_ofSize kBloomFilterBits kBloomHashFunctions).mightContain (by decide) (.inl (by decide)) val
  cases found with
  | false => exact hfound
  | true =>
    have hprobe : (hash val 0).toNat % kBloomFilterBits ∈
        probes kBloomFilterBits kBloomHashFunctions val :=
      List.mem_map_of_mem (by decide : 0 ∈ List.range kBloomHashFunctions)
    obtain ⟨k, hk, -⟩ := hiff.mp rfl _ hprobe
    cases hk

end BloomFilter

end ColumnarStore
