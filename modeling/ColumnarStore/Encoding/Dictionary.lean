import ColumnarStore.Encoding.Plain
import ColumnarStore.Foundation.Ascending

/-! The dictionary codec.

The distinct values are stored in ascending order, then the width of an index, then
the index of every value. An index takes one, two or four bytes by its width, but
the encoder appends as many bytes of the index array as there are values: the array
is complete only when an index is one byte. -/
namespace ColumnarStore.Encoding.Dictionary
open Foundation
variable (t : DataType)

/-! ### Encoding -/

/-- `std::sort`, then `std::unique`. -/
def dictionary (src : List (Native t)) : List (Native t) :=
  (src.insertionSort fun a b => Native.lt t b a = false).destutter fun a b => Native.eq t a b = false

/-- The position of `std::lower_bound`. -/
def lowerBound (dict : List (Native t)) (x : Native t) : Nat := dict.findIdx fun d => !Native.lt t d x

/-- `while ((1U << index_bits) < dict_size && index_bits < 32) ++index_bits`, with
`fuel` widenings left to 32. -/
def indexBitsLoop (dictSize : Nat) : Nat → Nat → Nat
  | 0, indexBits => indexBits
  | fuel + 1, indexBits =>
    if 2 ^ indexBits < dictSize then indexBitsLoop dictSize fuel (indexBits + 1) else indexBits

def indexBits (dictSize : Nat) : Nat := indexBitsLoop dictSize 32 0

/-- The bytes of an index in memory. -/
def indexSize (indexBits : Nat) : Nat := if indexBits ≤ 8 then 1 else if indexBits ≤ 16 then 2 else 4

def indices (size : Nat) (dict src : List (Native t)) : List (BitVec (8 * size)) :=
  src.map fun x => BitVec.ofNat (8 * size) (lowerBound t dict x)

def encode : List (Native t) → Outcome (List UInt8)
  | [] => .ok []
  | x :: rest =>
    let dict := dictionary t (x :: rest)
    let dictSize := BitVec.ofNat 32 dict.length
    let bits := indexBits dictSize.toNat
    let size := indexSize bits
    -- `Append(indices.data(), count)`: `count` bytes, whatever the size of an index.
    let appended := (storeWords size (indices t size dict (x :: rest))).take (rest.length + 1)
    .ok (storeWord 4 dictSize ++ storeWords t.typeSize dict ++ storeWord 1 (BitVec.ofNat 8 bits) ++ appended)

/-! ### Decoding -/

/-- The `i`-th index and the entry it selects; nothing compares it with `dict_size`. -/
def lookup (dict indices : List UInt8) (size i : Nat) : Outcome (Native t) := do
  let index ← orFault .outOfBounds (loadWord size (indices.drop (size * i)))
  orFault .outOfBounds (loadWord t.typeSize (dict.drop (t.typeSize * index.toNat)))

def decode (data : List UInt8) (dst : List (Native t)) : Outcome (List (Native t)) :=
  if dst.length = 0 then .ok dst
  else do
    let dictSize ← orFault .outOfBounds (loadWord 4 data)
    let dict := data.drop 4
    let src := dict.drop (t.typeSize * dictSize.toNat)
    let bits ← orFault .outOfBounds (loadWord 1 src)
    if bits.toNat = 0 then do
      let first ← orFault .outOfBounds (loadWord t.typeSize dict)
      return List.replicate dst.length first
    else (List.range dst.length).mapM (lookup t dict (src.drop 1) (indexSize bits.toNat))

/-! ### The width of an index -/

theorem indexBitsLoop_le {dictSize fuel bits k : Nat} (hbits : bits ≤ k) (hfuel : k < bits + fuel) :
    indexBitsLoop dictSize fuel bits ≤ k ↔ dictSize ≤ 2 ^ k := by
  induction fuel generalizing bits with
  | zero => omega
  | succ fuel ih =>
    rw [indexBitsLoop]
    by_cases h : 2 ^ bits < dictSize
    · rw [if_pos h]
      rcases hbits.lt_or_eq with hlt | rfl
      · exact ih hlt (by omega)
      · have hnext : bits + 1 ≤ indexBitsLoop dictSize fuel (bits + 1) := by
          generalize bits + 1 = b
          clear ih h hfuel hbits
          induction fuel generalizing b with
          | zero => exact Nat.le_refl b
          | succ fuel ih =>
            rw [indexBitsLoop]
            split
            · exact (Nat.le_succ b).trans (ih (b + 1))
            · exact Nat.le_refl b
        omega
    · rw [if_neg h]
      have hpow : 2 ^ bits ≤ 2 ^ k := Nat.pow_le_pow_right (by decide) hbits
      omega

theorem indexBitsLoop_bounded (dictSize fuel bits : Nat) :
    indexBitsLoop dictSize fuel bits ≤ fuel + bits := by
  induction fuel generalizing bits with
  | zero => exact (Nat.zero_add bits).ge
  | succ fuel ih =>
    rw [indexBitsLoop]
    split
    · have := ih (bits + 1)
      omega
    · omega

theorem indexBits_le_iff {dictSize k : Nat} (hk : k < 32) : indexBits dictSize ≤ k ↔ dictSize ≤ 2 ^ k :=
  indexBitsLoop_le (Nat.zero_le k) (by omega)

theorem indexSize_eq_one_iff {bits : Nat} : indexSize bits = 1 ↔ bits ≤ 8 := by
  unfold indexSize
  split
  · simp_all
  · split <;> simp_all

/-! ### The buffer -/

/-- The buffer of a nonempty block, taken apart as the decoder does. -/
theorem decode_storeDictionary {dict dst : List (Native t)} {bits : Nat} (hbits : bits < 256)
    (hdict : dict.length < 2 ^ 32) (hdst : dst.length ≠ 0) (rest : List UInt8) :
    decode t (storeWord 4 (BitVec.ofNat 32 dict.length) ++ storeWords t.typeSize dict ++
        storeWord 1 (BitVec.ofNat 8 bits) ++ rest) dst =
      if bits = 0 then do
        let first ← orFault .outOfBounds (loadWord t.typeSize
          (storeWords t.typeSize dict ++ (storeWord 1 (BitVec.ofNat 8 bits) ++ rest)))
        return List.replicate dst.length first
      else (List.range dst.length).mapM (lookup t
        (storeWords t.typeSize dict ++ (storeWord 1 (BitVec.ofNat 8 bits) ++ rest)) rest
        (indexSize bits)) := by
  have hcount : (BitVec.ofNat 32 dict.length).toNat = dict.length := toNat_ofNat_of_lt hdict
  have hwidth : (BitVec.ofNat 8 bits).toNat = bits := toNat_ofNat_of_lt hbits
  have hsrc : (storeWords t.typeSize dict ++ (storeWord 1 (BitVec.ofNat 8 bits) ++ rest)).drop
      (t.typeSize * dict.length) = storeWord 1 (BitVec.ofNat 8 bits) ++ rest :=
    List.drop_left' (length_storeWords ..)
  have hindices : (storeWord 1 (BitVec.ofNat 8 bits) ++ rest).drop 1 = rest :=
    List.drop_left' (length_storeWord 1 _)
  rw [decode, if_neg hdst]
  simp only [List.append_assoc, loadWord_storeWord, orFault_some, bind_ok, hcount,
    List.drop_left' (length_storeWord 4 _), hsrc, hindices, hwidth]

/-! ### The dictionary -/

section Distinct
variable {α : Type*} [DecidableEq α]

theorem mem_destutter' (a : α) (l : List α) : ∀ x ∈ a :: l, x ∈ l.destutter' (· ≠ ·) a := by
  induction l generalizing a with
  | nil => simp
  | cons b l ih =>
    intro x hx
    by_cases hab : a = b
    · rw [List.destutter'_cons_neg _ (by simpa using hab)]
      exact ih a x (by simpa [hab] using hx)
    · rw [List.destutter'_cons_pos _ hab]
      rcases List.mem_cons.mp hx with rfl | hx
      · exact List.mem_cons_self
      · exact List.mem_cons_of_mem _ (ih b x hx)

/-- Removing the repetitions of a sorted list leaves its values in strict order. -/
theorem ascending_destutter {f : α → Int} (hf : Function.Injective f) {l : List α}
    (h : l.Pairwise fun x y => f x ≤ f y) :
    Ascending f (l.destutter (· ≠ ·)) ∧ ∀ x, x ∈ l.destutter (· ≠ ·) ↔ x ∈ l := by
  constructor
  · have hle := h.sublist (List.destutter_sublist (· ≠ ·) l)
    have hne := List.isChain_destutter (· ≠ ·) l
    have hlt : (l.destutter (· ≠ ·)).IsChain fun x y => f x < f y := by
      rw [List.isChain_iff_getElem] at hne ⊢
      intro i hi
      have hstep := List.pairwise_iff_getElem.mp hle i (i + 1) (by omega) hi (by omega)
      exact lt_of_le_of_ne hstep fun heq => hne i hi (hf heq)
    have : IsTrans α fun x y => f x < f y := ⟨fun _ _ _ => lt_trans⟩
    exact List.isChain_iff_pairwise.mp hlt
  · intro x
    refine ⟨fun hx => (List.destutter_sublist (· ≠ ·) l).subset hx, fun hx => ?_⟩
    cases l with
    | nil => cases hx
    | cons a l => exact mem_destutter' a l x hx

end Distinct

section Integers
variable {t : DataType} (ht : t.isInteger = true)
include ht

theorem dictionary_spec (src : List (Native t)) :
    Ascending BitVec.toInt (dictionary t src) ∧ ∀ x, x ∈ dictionary t src ↔ x ∈ src := by
  have hdict : dictionary t src =
      (src.insertionSort fun a b => a.toInt ≤ b.toInt).destutter (· ≠ ·) := by
    simp only [dictionary, Native.lt_int ht, Native.eq_int ht, decide_eq_false_iff_not, not_lt, ne_eq]
  have : Std.Total fun a b : Native t => a.toInt ≤ b.toInt := ⟨fun a b => le_total a.toInt b.toInt⟩
  have : IsTrans (Native t) fun a b => a.toInt ≤ b.toInt := ⟨fun _ _ _ => le_trans⟩
  obtain ⟨hasc, hmem⟩ := ascending_destutter (fun x y => BitVec.eq_of_toInt_eq)
    (List.pairwise_insertionSort (fun a b : Native t => a.toInt ≤ b.toInt) src)
  rw [hdict]
  exact ⟨hasc, fun x => (hmem x).trans (List.mem_insertionSort _)⟩

/-- One entry for each distinct value. -/
theorem length_dictionary (src : List (Native t)) : (dictionary t src).length = src.dedup.length := by
  obtain ⟨hasc, hmem⟩ := dictionary_spec ht src
  have hnodup : (dictionary t src).Nodup := hasc.imp fun h heq => by simp [heq] at h
  refine List.Perm.length_eq ((List.perm_ext_iff_of_nodup hnodup src.nodup_dedup).mpr fun x => ?_)
  rw [hmem, List.mem_dedup]

/-- `lower_bound` finds a value of the dictionary. -/
theorem getElem_lowerBound {dict : List (Native t)} (h : Ascending BitVec.toInt dict) {x : Native t}
    (hx : x ∈ dict) : dict[lowerBound t dict x]? = some x := by
  obtain ⟨k, hk, rfl⟩ := List.getElem_of_mem hx
  have hle : lowerBound t dict dict[k] ≤ k := by
    by_contra hgt
    have hlt := List.not_of_lt_findIdx (not_le.mp hgt)
    simp [Native.lt_int ht] at hlt
  rcases hle.lt_or_eq with hlt | heq
  · have hin : lowerBound t dict dict[k] < dict.length := hlt.trans hk
    have hfound : (!Native.lt t dict[lowerBound t dict dict[k]] dict[k]) = true :=
      List.findIdx_getElem (w := hin)
    have horder : dict[lowerBound t dict dict[k]].toInt < dict[k].toInt :=
      List.pairwise_iff_getElem.mp h _ _ hin hk hlt
    rw [Native.lt_int ht, Bool.not_eq_true', decide_eq_false_iff_not] at hfound
    exact absurd horder hfound
  · rw [heq, List.getElem?_eq_getElem hk]

/-- The encoder's output, and the entries of its dictionary. -/
theorem encode_length {x : Native t} {rest : List (Native t)} {bytes : List UInt8}
    (h : encode t (x :: rest) = .ok bytes) :
    bytes.length = 5 + t.typeSize * (x :: rest).dedup.length + (rest.length + 1) := by
  cases h
  have hsize : 1 ≤ indexSize (indexBits (BitVec.ofNat 32 (dictionary t (x :: rest)).length).toNat) := by
    unfold indexSize
    split
    · exact Nat.le_refl 1
    · split <;> omega
  have htake : rest.length + 1 ≤
      indexSize (indexBits (BitVec.ofNat 32 (dictionary t (x :: rest)).length).toNat) *
        (rest.length + 1) := Nat.le_mul_of_pos_left _ hsize
  simp only [List.length_append, length_storeWord, length_storeWords, List.length_take, indices,
    List.length_map, List.length_cons, length_dictionary ht] at htake ⊢
  rw [Nat.min_eq_left htake]
  omega

omit ht in
/-- In an array of one-byte indices every value finds its entry. -/
theorem lookup_indices {dict src : List (Native t)} (hlen : dict.length ≤ 256) {i : Nat} {x : Native t}
    (hx : src[i]? = some x) (hentry : dict[lowerBound t dict x]? = some x) (tail : List UInt8) :
    lookup t (storeWords t.typeSize dict ++ tail) (storeWords 1 (indices t 1 dict src)) 1 i = .ok x := by
  have hbound := (List.getElem?_eq_some_iff.mp hentry).1
  have hindex : (indices t 1 dict src)[i]? = some (BitVec.ofNat 8 (lowerBound t dict x)) := by
    rw [indices, List.getElem?_map, hx]
    rfl
  have hnat : (BitVec.ofNat 8 (lowerBound t dict x)).toNat = lowerBound t dict x :=
    toNat_ofNat_of_lt (by omega)
  rw [lookup, loadWord_storeWords_self hindex, orFault_some, bind_ok, hnat, loadWord_storeWords hentry,
    orFault_some]

/-- Up to 256 distinct values the block comes back. -/
theorem decode_encode {src dst : List (Native t)} {bytes : List UInt8} (h : encode t src = .ok bytes)
    (hdistinct : src.dedup.length ≤ 256) (hdst : dst.length = src.length) :
    decode t bytes dst = .ok src := by
  cases src with
  | nil =>
    cases h
    cases List.length_eq_zero_iff.mp hdst
    rfl
  | cons x rest =>
    cases h
    obtain ⟨hasc, hmem⟩ := dictionary_spec ht (x :: rest)
    have hlen : (dictionary t (x :: rest)).length ≤ 256 := by
      rwa [length_dictionary ht]
    have hfind : ∀ y ∈ x :: rest,
        (dictionary t (x :: rest))[lowerBound t (dictionary t (x :: rest)) y]? = some y :=
      fun y hy => getElem_lowerBound ht hasc ((hmem y).mpr hy)
    have hpos : dst.length ≠ 0 := by simp [hdst]
    generalize dictionary t (x :: rest) = dict at hlen hfind
    have hbits : indexBits dict.length ≤ 8 := (indexBits_le_iff (by decide)).mpr hlen
    rw [toNat_ofNat_of_lt (by omega), decode_storeDictionary t (by omega) (by omega) hpos]
    by_cases hzero : indexBits dict.length = 0
    · -- A single entry: every value is the first of the dictionary.
      have hone : dict.length ≤ 1 := (indexBits_le_iff (by decide)).mp hzero.le
      have hall : ∀ y ∈ x :: rest, dict[0]? = some y := by
        intro y hy
        have hy' := hfind y hy
        have hin := (List.getElem?_eq_some_iff.mp hy').1
        rwa [show lowerBound t dict y = 0 by omega] at hy'
      have hfirst : ∀ tail, loadWord t.typeSize (storeWords t.typeSize dict ++ tail) = some x := by
        intro tail
        have hload := loadWord_storeWords (hall x List.mem_cons_self) tail
        rwa [Nat.mul_zero, List.drop_zero] at hload
      rw [if_pos hzero, hfirst, orFault_some, bind_ok, pure_eq_ok, hdst]
      congr 1
      refine (List.eq_replicate_iff.mpr ⟨rfl, fun y hy => ?_⟩).symm
      exact Option.some.inj ((hall y hy).symm.trans (hall x List.mem_cons_self))
    · have hwhole : (storeWords 1 (indices t 1 dict (x :: rest))).take (rest.length + 1) =
          storeWords 1 (indices t 1 dict (x :: rest)) := List.take_of_length_le (by simp [indices])
      rw [if_neg hzero, indexSize_eq_one_iff.mpr hbits, hwhole, mapM_range_eq_ok]
      exact ⟨hdst.symm, fun i y hy => lookup_indices hlen hy (hfind y (List.mem_of_getElem? hy)) _⟩

/-- From 257 distinct values on, the last index lies past the end of the buffer. -/
theorem decode_encode_cut {x : Native t} {rest dst : List (Native t)} {bytes : List UInt8}
    (h : encode t (x :: rest) = .ok bytes) (hdistinct : 256 < (x :: rest).dedup.length)
    (hlen : (x :: rest).dedup.length < 2 ^ 32) (hdst : dst.length = rest.length + 1) :
    ∀ values, decode t bytes dst ≠ .ok values := by
  cases h
  intro values hok
  have hdict := length_dictionary ht (x :: rest)
  have hcount : (BitVec.ofNat 32 (dictionary t (x :: rest)).length).toNat =
      (dictionary t (x :: rest)).length := toNat_ofNat_of_lt (by omega)
  have hbits : ¬ indexBits (dictionary t (x :: rest)).length ≤ 8 := by
    rw [indexBits_le_iff (by decide)]
    omega
  have hbits' : indexBits (dictionary t (x :: rest)).length ≤ 32 := indexBitsLoop_bounded _ 32 0
  have hsize : 2 ≤ indexSize (indexBits (dictionary t (x :: rest)).length) := by
    unfold indexSize
    rw [if_neg hbits]
    split <;> omega
  rw [hcount, decode_storeDictionary t (by omega) (by omega) (by omega), if_neg (by omega),
    mapM_range_eq_ok] at hok
  obtain ⟨hvalues, hall⟩ := hok
  have hlast := hall rest.length _ (List.getElem?_eq_getElem (by omega))
  obtain ⟨index, hindex, -⟩ := bind_eq_ok.mp hlast
  rw [orFault_eq_ok, loadWord_none] at hindex
  · cases hindex
  · simp only [List.length_drop, List.length_take]
    have := Nat.mul_le_mul_right rest.length hsize
    omega

theorem distinct_le_of_roundTrips {src : List (Native t)} (hlen : src.dedup.length < 2 ^ 32)
    (h : RoundTrips (encode t) (decode t) src) : src.dedup.length ≤ 256 := by
  cases src with
  | nil => exact Nat.zero_le _
  | cons x rest =>
    obtain ⟨bytes, hbytes, hdecode⟩ := h
    by_contra hmany
    exact decode_encode_cut ht hbytes (not_le.mp hmany) hlen rfl _ (hdecode (x :: rest) rfl)

/-- **A block comes back exactly when its indices take one byte each.** -/
theorem dictionary_roundTrips_iff {src : List (Native t)} (hlen : src.dedup.length < 2 ^ 32) :
    RoundTrips (encode t) (decode t) src ↔ src.dedup.length ≤ 256 := by
  constructor
  · exact distinct_le_of_roundTrips ht hlen
  · intro hdistinct
    have hok : ∃ bytes, encode t src = .ok bytes := by
      cases src with
      | nil => exact ⟨_, rfl⟩
      | cons x rest => exact ⟨_, rfl⟩
    obtain ⟨bytes, hbytes⟩ := hok
    exact ⟨bytes, hbytes, fun dst hdst => decode_encode ht hbytes hdistinct hdst⟩

end Integers

theorem dictionary_roundTrips_int32 :
    RoundTrips (encode .int32) (decode .int32) [5, -3, 5] :=
  (dictionary_roundTrips_iff (t := .int32) rfl (by decide)).mpr (by decide)

/-- The numbers up to 256. -/
def wideBlock : List (Native .int32) := (List.range 257).map fun i => BitVec.ofNat _ i

theorem distinct_wideBlock : wideBlock.dedup.length = 257 := by
  have hnodup : wideBlock.Nodup := nodup_map_ofNat (by decide)
  rw [hnodup.dedup, wideBlock, List.length_map, List.length_range]

theorem wideBlock_not_roundTrips :
    wideBlock.dedup.length < 2 ^ 32 ∧ ¬ RoundTrips (encode .int32) (decode .int32) wideBlock := by
  have hlen : wideBlock.dedup.length < 2 ^ 32 := by
    rw [distinct_wideBlock]
    decide
  refine ⟨hlen, fun h => ?_⟩
  have hle := distinct_le_of_roundTrips (t := .int32) rfl hlen h
  rw [distinct_wideBlock] at hle
  exact absurd hle (by decide)

end ColumnarStore.Encoding.Dictionary
