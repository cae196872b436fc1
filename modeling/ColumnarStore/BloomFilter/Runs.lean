import ColumnarStore.BloomFilter

/-! Filters that are filled, merged and stored.

A program has some number of filters of one size and calls their operations in any
order. What a value was added to, by itself or through merges, is a function of the calls
(`additions`); each filter's set bits are the probes of its additions after every call
(`Sound`), so no addition is ever missed (`noFalseNegatives_iff`). A filter of so many
bits that the sum for its words does not fit has no words, and the first value added to
it is written past them. -/
namespace ColumnarStore
open Foundation

/-- An integer type of the language, by its size: `Add` copies a value into eight bytes. -/
structure IntegerType where
  bytes : Nat
  small : bytes ≤ 8
  deriving DecidableEq

namespace IntegerType

abbrev Value (t : IntegerType) := BitVec (8 * t.bytes)

/-- A value in a zeroed word. -/
def key {t : IntegerType} (value : t.Value) : BitVec 64 := value.setWidth 64

def int32 : IntegerType := ⟨4, by decide⟩

end IntegerType

namespace BloomFilter

/-! ### Batches and merges -/

def addBatch {t : IntegerType} (bf : BloomFilter) (values : List t.Value) : Outcome BloomFilter :=
  bf.addAll (values.map IntegerType.key)

def mightContainBatch {t : IntegerType} (bf : BloomFilter) (values : List t.Value) : Outcome (List Bool) :=
  values.mapM fun value => bf.mightContain (IntegerType.key value)

/-- Filters of different parameters are left alone. -/
def merge (bf other : BloomFilter) : BloomFilter :=
  if bf.numBits ≠ other.numBits ∨ bf.numHashes ≠ other.numHashes then bf
  else {bf with
    bits := bf.bits.mapIdx fun i word => word ||| other.bits.getD i 0
    sized := by rw [List.length_mapIdx, bf.sized]}

theorem testBit_merge {bf other : BloomFilter} (hbits : bf.numBits = other.numBits)
    (hhashes : bf.numHashes = other.numHashes) (q : Nat) :
    (bf.merge other).testBit q = (bf.testBit q || other.testBit q) := by
  have hlen : bf.bits.length = other.bits.length := by rw [bf.sized, other.sized, hbits]
  rw [merge, if_neg (by simp [hbits, hhashes]), testBit_eq, testBit_eq, testBit_eq]
  simp only [List.getD_eq_getElem?_getD, List.getElem?_mapIdx]
  by_cases hq : q / 64 < bf.bits.length
  · simp [List.getElem?_eq_getElem hq]
  · rw [List.getElem?_eq_none (not_lt.mp hq), List.getElem?_eq_none (hlen ▸ not_lt.mp hq)]
    simp

theorem merge_params (bf other : BloomFilter) :
    (bf.merge other).numBits = bf.numBits ∧ (bf.merge other).numHashes = bf.numHashes := by
  unfold merge
  split <;> exact ⟨rfl, rfl⟩

theorem Holds.merge {bf other : BloomFilter} {keys otherKeys : List (BitVec 64)} (h : bf.Holds keys)
    (hother : other.Holds otherKeys) (hbits : bf.numBits = other.numBits)
    (hhashes : bf.numHashes = other.numHashes) : (bf.merge other).Holds (keys ++ otherKeys) := by
  have hparams := merge_params bf other
  intro q
  rw [testBit_merge hbits hhashes, Bool.or_eq_true, h q, hother q, hparams.1, hparams.2, ← hbits, ← hhashes]
  simp only [List.mem_append, or_and_right, exists_or]

/-! ### Calls -/

/-- A call on the filter of a number; `store` is `Write` followed by `Read`. -/
inductive Call where
  | add (i : Nat) (t : IntegerType) (value : t.Value)
  | addBatch (i : Nat) (t : IntegerType) (values : List t.Value)
  | merge (i other : Nat)
  | store (i : Nat)

namespace Call

/-- The filters a call is on. -/
def on : Call → List Nat
  | add i _ _ => [i]
  | addBatch i _ _ => [i]
  | merge i other => [i, other]
  | store i => [i]

def Within (n : Nat) (call : Call) : Prop := ∀ i ∈ call.on, i < n

instance (n : Nat) (call : Call) : Decidable (call.Within n) :=
  inferInstanceAs (Decidable (∀ i ∈ call.on, i < n))

/-- One filter is replaced by what an operation makes of it. -/
def update (filters : List BloomFilter) (i : Nat) (operation : BloomFilter → Outcome BloomFilter) :
    Outcome (List BloomFilter) := do
  let bf ← orFault .outOfBounds filters[i]?
  let bf ← operation bf
  return filters.set i bf

def apply (filters : List BloomFilter) : Call → Outcome (List BloomFilter)
  | add i _ value => update filters i fun bf => bf.add (IntegerType.key value)
  | addBatch i _ values => update filters i fun bf => bf.addBatch values
  | merge i other => do
    let otherFilter ← orFault .outOfBounds filters[other]?
    update filters i fun bf => .ok (bf.merge otherFilter)
  | store i => update filters i fun bf => read bf.write

end Call

/-- As many filters of one size, and then the calls. -/
def run (numBits numHashes n : Nat) (calls : List Call) : Outcome (List BloomFilter) :=
  calls.foldlM Call.apply (List.replicate n (ofSize numBits numHashes))

/-! ### What was added to each filter -/

/-- A value with the type it was added as. -/
abbrev Addition := (t : IntegerType) × t.Value

def Addition.key (a : Addition) : BitVec 64 := IntegerType.key a.2

/-- To each filter by itself, or to one merged into it. -/
def Call.additions (before : List (List Addition)) : Call → List (List Addition)
  | add i t value => before.modify i (· ++ [⟨t, value⟩])
  | addBatch i t values => before.modify i (· ++ values.map fun value => ⟨t, value⟩)
  | merge i other => before.modify i (· ++ before.getD other [])
  | store _ => before

def additions (n : Nat) (calls : List Call) : List (List Addition) :=
  calls.foldl Call.additions (List.replicate n [])

theorem length_additions (n : Nat) (calls : List Call) : (additions n calls).length = n := by
  induction calls using List.reverseRecOn with
  | nil => exact List.length_replicate
  | append_singleton before call ih =>
    rw [additions, List.foldl_append, ← additions, List.foldl_cons, List.foldl_nil]
    cases call <;> simp [Call.additions, ih]

/-- A filter with the parameters it was built with, whose bits are those of its additions. -/
structure Sound (numBits numHashes : Nat) (bf : BloomFilter) (added : List Addition) : Prop where
  numBits : bf.numBits = numBits
  numHashes : bf.numHashes = numHashes
  holds : bf.Holds (added.map Addition.key)

theorem forall₂_set_modify {α β : Type} {R : α → β → Prop} {as : List α} {bs : List β}
    (h : List.Forall₂ R as bs) {i : Nat} {g : β → β} {a' : α}
    (hi : ∀ a b, as[i]? = some a → bs[i]? = some b → R a b → R a' (g b)) :
    List.Forall₂ R (as.set i a') (bs.modify i g) := by
  induction h generalizing i with
  | nil => simp
  | @cons a b as bs hab hrest ih =>
    cases i with
    | zero => exact .cons (hi a b rfl rfl hab) hrest
    | succ i => exact .cons hab (ih fun a b ha hb => hi a b ha hb)

variable {numBits numHashes : Nat}

/-- An operation that adds to a filter adds to it in the list. -/
theorem update_sound {filters : List BloomFilter} {added : List (List Addition)} {i : Nat}
    {operation : BloomFilter → Outcome BloomFilter} {more : List Addition}
    (h : List.Forall₂ (Sound numBits numHashes) filters added) (hi : i < filters.length)
    (hoperation : ∀ bf values, Sound numBits numHashes bf values →
      ∃ bf', operation bf = .ok bf' ∧ Sound numBits numHashes bf' (values ++ more)) :
    ∃ filters', Call.update filters i operation = .ok filters' ∧
      List.Forall₂ (Sound numBits numHashes) filters' (added.modify i (· ++ more)) := by
  have hget := List.forall₂_iff_get.mp h
  obtain ⟨bf', hbf', -⟩ := hoperation filters[i] _ (hget.2 i hi (hget.1 ▸ hi))
  refine ⟨filters.set i bf', by simp [Call.update, List.getElem?_eq_getElem hi, hbf'], ?_⟩
  refine forall₂_set_modify h fun bf values hbf _ hsound => ?_
  obtain ⟨bf'', hbf'', hsound'⟩ := hoperation bf values hsound
  rw [List.getElem?_eq_getElem hi] at hbf
  cases hbf
  cases hbf'.symm.trans hbf''
  exact hsound'

theorem Sound.merge {bf other : BloomFilter} {values otherValues : List Addition}
    (h : Sound numBits numHashes bf values) (hother : Sound numBits numHashes other otherValues) :
    Sound numBits numHashes (bf.merge other) (values ++ otherValues) := by
  obtain ⟨hbits, hhashes, hholds⟩ := h
  have hparams := merge_params bf other
  refine ⟨hparams.1.trans hbits, hparams.2.trans hhashes, ?_⟩
  rw [List.map_append]
  exact hholds.merge hother.holds (hbits.trans hother.numBits.symm) (hhashes.trans hother.numHashes.symm)

section Invariant
variable (hpos : 1 ≤ numBits) (hfits : numBits + 63 < 2 ^ 64 ∨ numHashes = 0)
include hpos hfits

theorem Sound.addAll {bf : BloomFilter} {values : List Addition} (h : Sound numBits numHashes bf values)
    (more : List Addition) :
    ∃ bf', bf.addAll (more.map Addition.key) = .ok bf' ∧ Sound numBits numHashes bf' (values ++ more) := by
  obtain ⟨rfl, rfl, hholds⟩ := h
  obtain ⟨bf', hbf'⟩ := hholds.addAll_ok hpos hfits (more.map Addition.key)
  obtain ⟨hbits, hhashes, hholds'⟩ := hholds.addAll hbf'
  exact ⟨bf', hbf', hbits, hhashes, by rwa [List.map_append]⟩

/-- A call goes through, and keeps every filter sound. -/
theorem apply_sound (hbits : numBits < 2 ^ 64) (hhashes : numHashes < 2 ^ 64) {filters : List BloomFilter}
    {added : List (List Addition)} (h : List.Forall₂ (Sound numBits numHashes) filters added) {call : Call}
    (hcall : call.Within filters.length) :
    ∃ filters', call.apply filters = .ok filters' ∧
      List.Forall₂ (Sound numBits numHashes) filters' (call.additions added) := by
  cases call with
  | add i t value =>
    refine update_sound h (hcall i List.mem_cons_self) fun bf values hsound => ?_
    obtain ⟨bf', hbf', hsound'⟩ := hsound.addAll hpos hfits [⟨t, value⟩]
    refine ⟨bf', ?_, hsound'⟩
    rw [← hbf']
    exact (bind_pure _).symm
  | addBatch i t batch =>
    refine update_sound h (hcall i List.mem_cons_self) fun bf values hsound => ?_
    obtain ⟨bf', hbf', hsound'⟩ := hsound.addAll hpos hfits (batch.map fun value => ⟨t, value⟩)
    refine ⟨bf', ?_, hsound'⟩
    rwa [List.map_map] at hbf'
  | merge i other =>
    have hother : other < filters.length := hcall other (by simp [Call.on])
    have hget := List.forall₂_iff_get.mp h
    have hsource : Sound numBits numHashes filters[other] (added.getD other []) := by
      rw [List.getD_eq_getElem _ _ (hget.1 ▸ hother)]
      exact hget.2 other hother (hget.1 ▸ hother)
    rw [Call.apply, List.getElem?_eq_getElem hother, orFault_some, bind_ok]
    refine update_sound h (hcall i List.mem_cons_self) fun bf values hsound => ⟨_, rfl, ?_⟩
    exact hsound.merge hsource
  | store i =>
    have hsame : added.modify i (· ++ []) = added := by
      simp only [List.append_nil]
      exact List.modify_id i added
    rw [Call.additions, ← hsame]
    refine update_sound h (hcall i List.mem_cons_self) fun bf values hsound => ?_
    rw [List.append_nil]
    exact ⟨bf, read_write (hsound.numBits ▸ hbits) (hsound.numHashes ▸ hhashes), hsound⟩

/-- Every run goes through, and leaves every filter sound. -/
theorem run_sound (hbits : numBits < 2 ^ 64) (hhashes : numHashes < 2 ^ 64) {n : Nat} {calls : List Call}
    (hcalls : ∀ call ∈ calls, call.Within n) :
    ∃ filters, run numBits numHashes n calls = .ok filters ∧
      List.Forall₂ (Sound numBits numHashes) filters (additions n calls) := by
  induction calls using List.reverseRecOn with
  | nil =>
    refine ⟨_, rfl, ?_⟩
    rw [additions, List.foldl_nil, List.forall₂_iff_get]
    refine ⟨by simp, fun i hi hi' => ?_⟩
    rw [List.get_eq_getElem, List.get_eq_getElem, List.getElem_replicate, List.getElem_replicate]
    exact ⟨rfl, rfl, holds_ofSize numBits numHashes⟩
  | append_singleton before call ih =>
    obtain ⟨filters, hrun, hsound⟩ := ih fun c hc => hcalls c (List.mem_append_left _ hc)
    have hcall := hcalls call (List.mem_append_right _ List.mem_cons_self)
    have hlen : filters.length = n := hsound.length_eq.trans (length_additions n before)
    obtain ⟨filters', happly, hsound'⟩ := apply_sound hpos hfits hbits hhashes hsound (hlen ▸ hcall)
    refine ⟨filters', ?_, ?_⟩
    · rw [run, List.foldlM_append, ← run, hrun, bind_ok, List.foldlM_cons, happly]
      rfl
    · rw [additions, List.foldl_append]
      exact hsound'

end Invariant

/-! ### No false negatives -/

/-- After any calls every filter finds every value that was added to it or to a filter
merged into it, as the type it was added as; and a batch of tests finds what the tests
find one by one. -/
def NoFalseNegatives (numBits numHashes : Nat) : Prop :=
  ∀ (n : Nat) (calls : List Call), (∀ call ∈ calls, call.Within n) →
    ∃ filters, run numBits numHashes n calls = .ok filters ∧
      ∀ (i : Nat) (bf : BloomFilter), filters[i]? = some bf →
        (∀ (t : IntegerType) (value : t.Value), ⟨t, value⟩ ∈ (additions n calls).getD i [] →
          bf.mightContain (IntegerType.key value) = .ok true) ∧
        ∀ (t : IntegerType) (values : List t.Value),
          ∃ results, bf.mightContainBatch values = .ok results ∧ results.length = values.length ∧
            ∀ (k : Nat) (value : t.Value), values[k]? = some value →
              ∃ found, bf.mightContain (IntegerType.key value) = .ok found ∧ results[k]? = some found

/-- A batch of tests that return is the tests. -/
theorem mightContainBatch_ok {bf : BloomFilter} (h : ∀ val, ∃ found, bf.mightContain val = .ok found)
    {t : IntegerType} (values : List t.Value) :
    ∃ results, bf.mightContainBatch values = .ok results ∧ results.length = values.length ∧
      ∀ (k : Nat) (value : t.Value), values[k]? = some value →
        ∃ found, bf.mightContain (IntegerType.key value) = .ok found ∧ results[k]? = some found := by
  obtain ⟨results, hresults⟩ := exists_mapM_ok (l := values) fun value _ => h (IntegerType.key value)
  obtain ⟨hlen, hall⟩ := List.forall₂_iff_get.mp (mapM_eq_ok.mp hresults)
  refine ⟨results, hresults, hlen.symm, fun k value hk => ?_⟩
  obtain ⟨hlt, rfl⟩ := List.getElem?_eq_some_iff.mp hk
  exact ⟨results[k], hall k hlt (hlen ▸ hlt), List.getElem?_eq_getElem _⟩

/-- A value added to a filter without words is written past them. -/
theorem add_wordless {numBits numHashes : Nat} (hbits : numBits < 2 ^ 64) (hwide : 2 ^ 64 ≤ numBits + 63)
    (hhash : numHashes ≠ 0) (val : BitVec 64) (bf : BloomFilter) :
    (ofSize numBits numHashes).add val ≠ .ok bf := by
  intro hadd
  obtain ⟨bits, hprobes, -⟩ := bind_eq_ok.mp hadd
  obtain ⟨-, hin, -⟩ := boundedProbes_eq_ok.mp hprobes
  have hfirst : (hash val 0).toNat % numBits ∈ probes numBits numHashes val :=
    List.mem_map_of_mem (List.mem_range.mpr (Nat.pos_of_ne_zero hhash))
  have hlt := hin _ hfirst
  rw [BloomFilter.sized, ofSize, wordCount_of_ge hbits hwide] at hlt
  exact absurd hlt (Nat.not_lt_zero _)

/-- **No filter ever misses a value exactly when the filters have words for their bits,
or hash nothing.** -/
theorem noFalseNegatives_iff (numBits numHashes : Nat) (hpos : 1 ≤ numBits) (hbits : numBits < 2 ^ 64)
    (hhashes : numHashes < 2 ^ 64) :
    NoFalseNegatives numBits numHashes ↔ numBits + 63 < 2 ^ 64 ∨ numHashes = 0 := by
  constructor
  · intro h
    by_contra hwide
    obtain ⟨hwide, hhash⟩ := not_or.mp hwide
    obtain ⟨filters, hrun, -⟩ := h 1 [.add 0 .int32 1] (by decide)
    obtain ⟨filters₁, hcall, -⟩ := bind_eq_ok.mp hrun
    obtain ⟨bf₁, hbf₁, hcall⟩ := bind_eq_ok.mp hcall
    cases hbf₁
    obtain ⟨bf, hadd, -⟩ := bind_eq_ok.mp hcall
    exact add_wordless hbits (not_lt.mp hwide) hhash _ bf hadd
  · intro hfits n calls hcalls
    obtain ⟨filters, hrun, hsound⟩ := run_sound hpos hfits hbits hhashes hcalls
    refine ⟨filters, hrun, fun i bf hbf => ?_⟩
    obtain ⟨hi, rfl⟩ := List.getElem?_eq_some_iff.mp hbf
    have hget := List.forall₂_iff_get.mp hsound
    obtain ⟨rfl, rfl, hholds⟩ := hget.2 i hi (hget.1 ▸ hi)
    refine ⟨fun t value hvalue => ?_, fun t values => mightContainBatch_ok (fun val => ?_) values⟩
    · rw [List.getD_eq_getElem _ _ (hget.1 ▸ hi)] at hvalue
      exact hholds.mightContain_mem hpos hfits (List.mem_map_of_mem (f := Addition.key) hvalue)
    · obtain ⟨found, hfound, -⟩ := hholds.mightContain hpos hfits val
      exact ⟨found, hfound⟩

/-- Filters of 70 bits and 3 hashes. -/
theorem seventy_noFalseNegatives : NoFalseNegatives 70 3 :=
  (noFalseNegatives_iff 70 3 (by decide) (by decide) (by decide)).mpr (.inl (by decide))

/-- A filter of the greatest number of bits has no words to put a 1 in. -/
theorem widest_falseNegative : ¬ NoFalseNegatives (2 ^ 64 - 1) 7 := by
  intro h
  obtain ⟨filters, hrun, -⟩ := h 1 [.add 0 .int32 1] (by decide)
  have hfault : run (2 ^ 64 - 1) 7 1 [.add 0 .int32 1] = .error .outOfBounds := by decide +kernel
  cases hfault.symm.trans hrun

end BloomFilter

end ColumnarStore
