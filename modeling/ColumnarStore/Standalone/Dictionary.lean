import ColumnarStore.Foundation.Numbering
import ColumnarStore.Foundation.Runs
import ColumnarStore.Encoding.Dictionary

/-! The standalone dictionary encoder.

`Build` gives a new value the next number and keeps what an earlier call left.
`BuildSorted` replaces the dictionary by the distinct values in ascending order, but
writes their numbers over the map as it is: a value that only an earlier call had
keeps its old number, and a later `Build` takes it for known. Both number with 32 bits.
The map is a function, which is what a hash map is for integer values. -/
namespace ColumnarStore.Standalone.Dictionary
open Foundation
open Encoding.Dictionary (dictionary_spec length_dictionary)
variable {t : DataType}

/-! ### The encoder -/

abbrev IdMap (t : DataType) := Native t → Option (BitVec 32)

structure DictionaryEncoder (t : DataType) where
  dictionary : List (Native t) := []
  indices : List (BitVec 32) := []
  valueToId : IdMap t := fun _ => none

namespace DictionaryEncoder

/-- The number of a value, which is appended when it has none. -/
def assign (enc : DictionaryEncoder t) (v : Native t) : BitVec 32 × DictionaryEncoder t :=
  match enc.valueToId v with
  | none =>
    let id := BitVec.ofNat 32 enc.dictionary.length
    (id, {enc with dictionary := enc.dictionary ++ [v]
                   valueToId := Function.update enc.valueToId v (some id)})
  | some id => (id, enc)

def assignAll (enc : DictionaryEncoder t) : List (Native t) → List (BitVec 32) × DictionaryEncoder t
  | [] => ([], enc)
  | v :: rest =>
    let (id, enc) := enc.assign v
    let (ids, enc) := assignAll enc rest
    (id :: ids, enc)

def build (enc : DictionaryEncoder t) (values : List (Native t)) : DictionaryEncoder t :=
  let (indices, enc) := enc.assignAll values
  {enc with indices}

/-- `for (uint32_t i = 0; i < dictionary_.size(); ++i)` over the map; the counter wraps. -/
def numberFrom (dict : List (Native t)) : Nat → BitVec 32 → IdMap t → Outcome (IdMap t)
  | 0, _, _ => .error .diverges
  | fuel + 1, i, ids =>
    match dict[i.toNat]? with
    | none => .ok ids
    | some v => numberFrom dict fuel (i + 1) (Function.update ids v (some i))

/-- A loop that has not ended behind the last entry runs for ever (`numberFrom_diverges`). -/
def number (dict : List (Native t)) (ids : IdMap t) : Outcome (IdMap t) :=
  numberFrom dict (dict.length + 1) 0 ids

/-- `value_to_id_[v]`, which enters 0 for a value without a number. -/
def fetch (ids : IdMap t) (v : Native t) : BitVec 32 × IdMap t :=
  match ids v with
  | none => (0, Function.update ids v (some 0))
  | some id => (id, ids)

def fetchAll (ids : IdMap t) : List (Native t) → List (BitVec 32) × IdMap t
  | [] => ([], ids)
  | v :: rest =>
    let (id, ids) := fetch ids v
    let (indices, ids) := fetchAll ids rest
    (id :: indices, ids)

/-- The old dictionary goes, the old map stays. -/
def buildSorted (enc : DictionaryEncoder t) (values : List (Native t)) : Outcome (DictionaryEncoder t) := do
  let sorted := Encoding.Dictionary.dictionary t values
  let ids ← number sorted enc.valueToId
  let (indices, ids) := fetchAll ids values
  return {dictionary := sorted, indices, valueToId := ids}

/-- `value_to_id_.at` throws for a value without a number. -/
def encode (enc : DictionaryEncoder t) (values : List (Native t)) : Outcome (List (BitVec 32)) :=
  values.mapM fun v => orFault .outOfBounds (enc.valueToId v)

def decode (enc : DictionaryEncoder t) (indices : List (BitVec 32)) : Outcome (List (Native t)) :=
  indices.mapM fun i => orFault .outOfBounds enc.dictionary[i.toNat]?

/-! ### Looking up -/

/-- Indices that select the values are decoded to them. -/
theorem decode_eq_ok {enc : DictionaryEncoder t} {indices : List (BitVec 32)} {values : List (Native t)} :
    decode enc indices = .ok values ↔
      List.Forall₂ (fun i v => enc.dictionary[i.toNat]? = some v) indices values := by
  rw [decode, mapM_eq_ok]
  simp only [orFault_eq_ok]

/-! ### Build -/

section Build
variable {pool : List (Native t)} (hpool : pool.dedup.length ≤ 2 ^ 32)
include hpool

omit hpool in
theorem length_le_distinct {dict : List (Native t)} (hnodup : dict.Nodup) (hdict : dict ⊆ pool) :
    dict.length ≤ pool.dedup.length :=
  (hnodup.subperm fun _ hu => List.mem_dedup.mpr (hdict hu)).length_le

omit hpool in
/-- A dictionary that lacks a value of the pool is shorter than the pool. -/
theorem length_lt_distinct {dict : List (Native t)} {v : Native t} (hnodup : dict.Nodup) (hdict : dict ⊆ pool)
    (hv : v ∈ pool) (hnew : v ∉ dict) : dict.length < pool.dedup.length :=
  length_le_distinct (List.nodup_cons.mpr ⟨hnew, hnodup⟩) (List.cons_subset.mpr ⟨hv, hdict⟩)

/-- One value of a pool for which the numbers suffice. -/
theorem assign_spec {enc : DictionaryEncoder t} (h : Numbers enc.valueToId enc.dictionary)
    (hdict : enc.dictionary ⊆ pool) {v : Native t} (hv : v ∈ pool) :
    Numbers (enc.assign v).2.valueToId (enc.assign v).2.dictionary ∧
      enc.dictionary <+: (enc.assign v).2.dictionary ∧
      (∀ u, u ∈ (enc.assign v).2.dictionary ↔ u ∈ enc.dictionary ∨ u = v) ∧
      (enc.assign v).2.dictionary[(enc.assign v).1.toNat]? = some v := by
  have hlen := (length_le_distinct h.nodup hdict).trans hpool
  unfold assign
  cases hid : enc.valueToId v with
  | none =>
    have hnew := (h.eq_none_iff hlen).mp hid
    have hroom := (length_lt_distinct h.nodup hdict hv hnew).trans_le hpool
    refine ⟨h.push hnew hroom, List.prefix_append _ _, fun u => ?_, ?_⟩
    · rw [List.mem_append, List.mem_singleton]
    · show (enc.dictionary ++ [v])[(BitVec.ofNat 32 enc.dictionary.length).toNat]? = some v
      rw [toNat_ofNat_of_lt hroom, List.getElem?_concat_length]
  | some id =>
    refine ⟨h, List.prefix_rfl, fun u => ?_, (h.inverse v id).mp hid⟩
    refine ⟨Or.inl, fun hu => ?_⟩
    rcases hu with hu | rfl
    · exact hu
    · exact h.mem hid

theorem assignAll_spec {values : List (Native t)} {enc : DictionaryEncoder t}
    (h : Numbers enc.valueToId enc.dictionary) (hdict : enc.dictionary ⊆ pool) (hvalues : values ⊆ pool) :
    Numbers (enc.assignAll values).2.valueToId (enc.assignAll values).2.dictionary ∧
      enc.dictionary <+: (enc.assignAll values).2.dictionary ∧
      (∀ u, u ∈ (enc.assignAll values).2.dictionary ↔ u ∈ enc.dictionary ∨ u ∈ values) ∧
      List.Forall₂ (fun i v => (enc.assignAll values).2.dictionary[i.toNat]? = some v)
        (enc.assignAll values).1 values := by
  induction values generalizing enc with
  | nil => exact ⟨h, List.prefix_rfl, fun u => by simp [assignAll], .nil⟩
  | cons v rest ih =>
    obtain ⟨hv, hrest⟩ := List.cons_subset.mp hvalues
    obtain ⟨hone, hgrown, hmem, hentry⟩ := assign_spec hpool h hdict hv
    have hdict' : (enc.assign v).2.dictionary ⊆ pool := by
      intro u hu
      rcases (hmem u).mp hu with hu | rfl
      · exact hdict hu
      · exact hv
    obtain ⟨hall, hgrown', hmem', hentries⟩ := ih hone hdict' hrest
    refine ⟨hall, hgrown.trans hgrown', fun u => ?_, .cons ?_ hentries⟩
    · exact (hmem' u).trans (by rw [hmem, List.mem_cons, or_assoc])
    · obtain ⟨hin, hget⟩ := List.getElem?_eq_some_iff.mp hentry
      exact (List.prefix_iff_getElem?.mp hgrown' _ hin).trans (congrArg some hget)

/-- **After `Build` the encoder knows what it knew and the values of the list, and its
indices decode to the list.** -/
theorem build_spec {enc : DictionaryEncoder t} (h : Numbers enc.valueToId enc.dictionary)
    (hdict : enc.dictionary ⊆ pool) {values : List (Native t)} (hvalues : values ⊆ pool) :
    Numbers (enc.build values).valueToId (enc.build values).dictionary ∧
      (∀ u, u ∈ (enc.build values).dictionary ↔ u ∈ enc.dictionary ∨ u ∈ values) ∧
      decode (enc.build values) (enc.build values).indices = .ok values := by
  obtain ⟨hall, -, hmem, hentries⟩ := assignAll_spec hpool h hdict hvalues
  exact ⟨hall, hmem, decode_eq_ok.mpr hentries⟩

end Build

/-! ### BuildSorted -/

/-- The loop from an entry on writes the positions of the entries from there on. -/
theorem numberFrom_eq {dict : List (Native t)} (hnodup : dict.Nodup) (hlen : dict.length < 2 ^ 32) {i fuel : Nat}
    (hi : i ≤ dict.length) (hfuel : dict.length - i < fuel) (ids : IdMap t) :
    numberFrom dict fuel (BitVec.ofNat 32 i) ids =
      .ok fun v => if v ∈ dict.drop i then some (BitVec.ofNat 32 (dict.idxOf v)) else ids v := by
  induction fuel generalizing i ids with
  | zero => omega
  | succ fuel ih =>
    have hnat : (BitVec.ofNat 32 i).toNat = i := toNat_ofNat_of_lt (by omega)
    rw [numberFrom, hnat]
    rcases hi.lt_or_eq with hlt | rfl
    · have hnext : BitVec.ofNat 32 i + 1 = BitVec.ofNat 32 (i + 1) := by
        rw [BitVec.ofNat_add]
        rfl
      rw [List.getElem?_eq_getElem hlt]
      simp only [hnext]
      rw [ih hlt (by omega)]
      congr 1
      funext v
      have hmem : v ∈ dict.drop i ↔ v = dict[i] ∨ v ∈ dict.drop (i + 1) := by
        rw [List.drop_eq_getElem_cons hlt, List.mem_cons]
      by_cases hrest : v ∈ dict.drop (i + 1)
      · rw [if_pos hrest, if_pos (hmem.mpr (.inr hrest))]
      · rw [if_neg hrest]
        by_cases hv : v = dict[i]
        · rw [if_pos (hmem.mpr (.inl hv)), hv, Function.update_self, hnodup.idxOf_getElem]
        · rw [if_neg fun h => not_or.mpr ⟨hv, hrest⟩ (hmem.mp h), Function.update_of_ne hv]
    · rw [List.getElem?_eq_none le_rfl, List.drop_length]
      simp

theorem number_eq {dict : List (Native t)} (hnodup : dict.Nodup) (hlen : dict.length < 2 ^ 32) (ids : IdMap t) :
    number dict ids = .ok (numbersOver ids dict) :=
  numberFrom_eq hnodup hlen (Nat.zero_le _) (by omega) ids

/-- No 32-bit counter gets past so many entries. -/
theorem numberFrom_diverges {dict : List (Native t)} (hlen : 2 ^ 32 ≤ dict.length) (fuel : Nat) (i : BitVec 32)
    (ids : IdMap t) : numberFrom dict fuel i ids = .error .diverges := by
  induction fuel generalizing i ids with
  | zero => rfl
  | succ fuel ih =>
    rw [numberFrom, List.getElem?_eq_getElem (i.isLt.trans_le hlen)]
    exact ih _ _

/-- Fetching known values changes nothing. -/
theorem fetchAll_eq {ids : IdMap t} {id : Native t → BitVec 32} {values : List (Native t)}
    (h : ∀ v ∈ values, ids v = some (id v)) : fetchAll ids values = (values.map id, ids) := by
  induction values with
  | nil => rfl
  | cons v rest ih =>
    obtain ⟨hv, hrest⟩ := List.forall_mem_cons.mp h
    rw [fetchAll, fetch, hv]
    simp only [ih hrest, List.map_cons]

/-- What `BuildSorted` leaves when the numbers suffice: positions in the new dictionary,
written over the old map. -/
def sorted (enc : DictionaryEncoder t) (values : List (Native t)) : DictionaryEncoder t where
  dictionary := Encoding.Dictionary.dictionary t values
  indices := values.map fun v => BitVec.ofNat 32 ((Encoding.Dictionary.dictionary t values).idxOf v)
  valueToId := numbersOver enc.valueToId (Encoding.Dictionary.dictionary t values)

section Integers
variable (ht : t.isInteger = true)
include ht

theorem nodup_dictionary (values : List (Native t)) : (Encoding.Dictionary.dictionary t values).Nodup :=
  (dictionary_spec ht values).1.imp fun hlt heq => by simp [heq] at hlt

theorem buildSorted_eq (enc : DictionaryEncoder t) {values : List (Native t)} (hlen : values.dedup.length < 2 ^ 32) :
    buildSorted enc values = .ok (sorted enc values) := by
  have hmem := (dictionary_spec ht values).2
  have hnumber := number_eq (nodup_dictionary ht values) (by rwa [length_dictionary ht]) enc.valueToId
  have hfetch := fetchAll_eq fun v (hv : v ∈ values) => numbersOver_of_mem enc.valueToId ((hmem v).mpr hv)
  simp only [buildSorted, hnumber, bind_ok, hfetch, pure_eq_ok, sorted]

/-- From 2^32 distinct values on the counter never reaches the size of the dictionary. -/
theorem buildSorted_diverges (enc : DictionaryEncoder t) {values : List (Native t)}
    (hlen : 2 ^ 32 ≤ values.dedup.length) : buildSorted enc values = .error .diverges := by
  rw [← length_dictionary ht] at hlen
  simp only [buildSorted, number, numberFrom_diverges hlen, bind_error]

theorem toNat_position {values : List (Native t)} (hlen : values.dedup.length < 2 ^ 32) {v : Native t}
    (hv : v ∈ values) :
    (Encoding.Dictionary.dictionary t values).idxOf v < (Encoding.Dictionary.dictionary t values).length ∧
      (BitVec.ofNat 32 ((Encoding.Dictionary.dictionary t values).idxOf v)).toNat =
        (Encoding.Dictionary.dictionary t values).idxOf v := by
  have hpos := List.idxOf_lt_length_of_mem (((dictionary_spec ht values).2 v).mpr hv)
  have hbound := length_dictionary ht values
  exact ⟨hpos, toNat_ofNat_of_lt (by omega)⟩

/-- The positions of the values decode to the values. -/
theorem decode_sorted (enc : DictionaryEncoder t) {values : List (Native t)} (hlen : values.dedup.length < 2 ^ 32) :
    decode (sorted enc values) (sorted enc values).indices = .ok values := by
  rw [decode_eq_ok, sorted, List.forall₂_map_left_iff, List.forall₂_same]
  intro v hv
  obtain ⟨hpos, hnat⟩ := toNat_position ht hlen hv
  rw [hnat, List.getElem?_eq_getElem hpos, List.getElem_idxOf]

/-- In a list in ascending order the lesser value stands first. -/
theorem idxOf_lt_iff {dict : List (Native t)} (h : Ascending BitVec.toInt dict) {x y : Native t} (hx : x ∈ dict)
    (hy : y ∈ dict) : dict.idxOf x < dict.idxOf y ↔ Native.lt t x y = true := by
  have hx' := List.idxOf_lt_length_of_mem hx
  have hy' := List.idxOf_lt_length_of_mem hy
  have horder : ∀ {a b : Native t} (ha : dict.idxOf a < dict.length) (hb : dict.idxOf b < dict.length),
      dict.idxOf a < dict.idxOf b → a.toInt < b.toInt := by
    intro a b ha hb hab
    have hlt := List.pairwise_iff_getElem.mp h _ _ ha hb hab
    rwa [List.getElem_idxOf, List.getElem_idxOf] at hlt
  rw [Native.lt_int ht, decide_eq_true_eq]
  refine ⟨horder hx' hy', fun hlt => ?_⟩
  by_contra hle
  rcases (not_lt.mp hle).lt_or_eq with hgt | heq
  · exact (hlt.trans (horder hy' hx' hgt)).false
  · have hxy : x = y := by
      rw [← List.getElem_idxOf hx', ← List.getElem_idxOf hy']
      simp only [heq]
    exact (hxy ▸ hlt).false

end Integers

/-! ### The order of the indices -/

/-- The indices are in range, decode to the list and compare as its values do. -/
def CodesInOrder (values : List (Native t)) : Prop :=
  ∃ enc, buildSorted {} values = .ok enc ∧
    (∀ i ∈ enc.indices, i.toNat < enc.dictionary.length) ∧ decode enc enc.indices = .ok values ∧
    ∀ (i j : Nat) (x y : Native t) (a b : BitVec 32), values[i]? = some x → values[j]? = some y →
      enc.indices[i]? = some a → enc.indices[j]? = some b → (Native.lt t x y = true ↔ a.toNat < b.toNat)

/-- **`BuildSorted` on a fresh encoder codes the list in order exactly when the list has
fewer than 2^32 distinct values.** -/
theorem codesInOrder_iff (ht : t.isInteger = true) (values : List (Native t)) :
    CodesInOrder values ↔ values.dedup.length < 2 ^ 32 := by
  constructor
  · intro h
    obtain ⟨enc, hbuilt, -⟩ := h
    by_contra hlen
    rw [buildSorted_diverges ht _ (not_lt.mp hlen)] at hbuilt
    cases hbuilt
  · intro hlen
    obtain ⟨hasc, hmem⟩ := dictionary_spec ht values
    refine ⟨_, buildSorted_eq ht {} hlen, fun i hi => ?_, decode_sorted ht {} hlen, ?_⟩
    · obtain ⟨v, hv, rfl⟩ := List.mem_map.mp hi
      obtain ⟨hpos, hnat⟩ := toNat_position ht hlen hv
      rw [hnat]
      exact hpos
    · intro i j x y a b hx hy ha hb
      have hx' := List.mem_of_getElem? hx
      have hy' := List.mem_of_getElem? hy
      rw [sorted, List.getElem?_map, hx, Option.map_some, Option.some.injEq] at ha
      rw [sorted, List.getElem?_map, hy, Option.map_some, Option.some.injEq] at hb
      rw [← ha, ← hb, (toNat_position ht hlen hx').2, (toNat_position ht hlen hy').2,
        idxOf_lt_iff ht hasc ((hmem x).mpr hx') ((hmem y).mpr hy')]

theorem codesInOrder_iff_int64 :
    CodesInOrder (t := .int64) [30, -7, 30] ↔ ([30, -7, 30] : List (Native .int64)).dedup.length < 2 ^ 32 :=
  codesInOrder_iff (t := .int64) rfl [30, -7, 30]

/-- Every 32-bit value once. -/
def everyInt32 : List (Native .int32) := (List.range (2 ^ 32)).map (BitVec.ofNat 32)

theorem everyInt32_not_codesInOrder : ¬ CodesInOrder everyInt32 := by
  intro h
  obtain ⟨enc, hbuilt, -⟩ := h
  have hlen : 2 ^ 32 ≤ everyInt32.dedup.length := by
    have hnodup : everyInt32.Nodup := nodup_map_ofNat (Nat.le_refl (2 ^ 32))
    rw [hnodup.dedup]
    exact ((List.length_map _).trans List.length_range).ge
  rw [buildSorted_diverges (t := .int32) rfl _ hlen] at hbuilt
  cases hbuilt

/-! ### Runs of calls -/

inductive Call (t : DataType) where
  | build (values : List (Native t))
  | buildSorted (values : List (Native t))

def Call.values : Call t → List (Native t)
  | build values => values
  | buildSorted values => values

def Call.run (enc : DictionaryEncoder t) : Call t → Outcome (DictionaryEncoder t)
  | build values => .ok (enc.build values)
  | buildSorted values => enc.buildSorted values

/-- The encoder and the list of the last call, after one more call. -/
def after (s : Outcome (DictionaryEncoder t × List (Native t))) (call : Call t) :
    Outcome (DictionaryEncoder t × List (Native t)) := do
  let (enc, _) ← s
  let enc ← call.run enc
  return (enc, call.values)

/-- The indices decode to the list of the last call, and the map is the inverse of the dictionary. -/
def Consistent (s : Outcome (DictionaryEncoder t × List (Native t))) : Prop :=
  ∃ enc values, s = .ok (enc, values) ∧ decode enc enc.indices = .ok values ∧
    Numbers enc.valueToId enc.dictionary

/-- A sorted call brings the values of an earlier one. -/
def Call.Covers (later earlier : Call t) : Prop :=
  match later with
  | build _ => True
  | buildSorted values => earlier.values ⊆ values

/-- A call that brings some values brings fewer. -/
theorem Call.Covers.mono {later earlier fewer : Call t} (h : later.Covers earlier)
    (hsub : fewer.values ⊆ earlier.values) : later.Covers fewer := by
  cases later with
  | build => exact trivial
  | buildSorted values => exact fun u hu => h (hsub hu)

theorem Call.covers_union_iff {later : Call t} {union left right : List (Native t)}
    (hmem : ∀ v, v ∈ union ↔ v ∈ left ∨ v ∈ right) :
    later.Covers (.build union) ↔ later.Covers (.build left) ∧ later.Covers (.build right) := by
  constructor
  · intro h
    exact ⟨h.mono fun u hu => (hmem u).mpr (.inl hu), h.mono fun u hu => (hmem u).mpr (.inr hu)⟩
  · intro h
    cases later with
    | build => exact trivial
    | buildSorted values =>
      intro u hu
      rcases (hmem u).mp hu with hu | hu
      · exact h.1 hu
      · exact h.2 hu

section Runs
variable (ht : t.isInteger = true)
include ht

/-- A sorted call leaves the map an inverse just when it brings every value of the dictionary. -/
theorem numbers_buildSorted_iff {enc : DictionaryEncoder t} (h : Numbers enc.valueToId enc.dictionary)
    (hdict : enc.dictionary.length ≤ 2 ^ 32) {values : List (Native t)} (hlen : values.dedup.length < 2 ^ 32) :
    Numbers (numbersOver enc.valueToId (Encoding.Dictionary.dictionary t values))
        (Encoding.Dictionary.dictionary t values) ↔ enc.dictionary ⊆ values := by
  have hmem := (dictionary_spec ht values).2
  rw [numbers_numbersOver_iff _ (nodup_dictionary ht values) (by rw [length_dictionary ht]; exact hlen.le)]
  constructor
  · intro h' v hv
    by_contra hnot
    exact (h.eq_none_iff hdict).mp (h' v (mt (hmem v).mp hnot)) hv
  · intro h' v hv
    exact (h.eq_none_iff hdict).mpr fun hin => hv ((hmem v).mpr (h' hin))

/-- From an encoder whose map is an inverse, a run keeps it one and its indices right
exactly when every sorted call brings the values of the dictionary and of the calls before it. -/
theorem throughout_consistent_iff {pool : List (Native t)} (hpool : pool.dedup.length < 2 ^ 32) {calls : List (Call t)}
    (hcalls : ∀ call ∈ calls, call.values ⊆ pool) {enc : DictionaryEncoder t} {last : List (Native t)}
    (h : Numbers enc.valueToId enc.dictionary) (hdecode : decode enc enc.indices = .ok last)
    (hdict : enc.dictionary ⊆ pool) :
    Throughout after Consistent (.ok (enc, last)) calls ↔
      (∀ call ∈ calls, call.Covers (.build enc.dictionary)) ∧ calls.Pairwise fun a b => b.Covers a := by
  have hnow : Consistent (.ok (enc, last)) := ⟨enc, last, rfl, hdecode, h⟩
  induction calls generalizing enc last with
  | nil => exact iff_of_true hnow ⟨nofun, .nil⟩
  | cons call rest ih =>
    obtain ⟨hcall, hrest⟩ := List.forall_mem_cons.mp hcalls
    rw [Throughout, and_iff_right hnow, List.forall_mem_cons, List.pairwise_cons]
    cases call with
    | build values =>
      obtain ⟨hnumbers, hmem, hvalues⟩ := build_spec hpool.le h hdict hcall
      have hdict' : (enc.build values).dictionary ⊆ pool := by
        intro u hu
        rcases (hmem u).mp hu with hu | hu
        · exact hdict hu
        · exact hcall hu
      have hcovers := fun later : Call t => later.covers_union_iff hmem
      refine (ih hrest hnumbers hvalues hdict' ⟨_, _, rfl, hvalues, hnumbers⟩).trans ?_
      constructor
      · intro h'
        obtain ⟨hlater, hpairs⟩ := h'
        exact ⟨⟨trivial, fun b hb => ((hcovers b).mp (hlater b hb)).1⟩,
          fun b hb => ((hcovers b).mp (hlater b hb)).2, hpairs⟩
      · intro h'
        obtain ⟨⟨-, hold⟩, hnew, hpairs⟩ := h'
        exact ⟨fun b hb => (hcovers b).mpr ⟨hold b hb, hnew b hb⟩, hpairs⟩
    | buildSorted values =>
      have hlen : values.dedup.length < 2 ^ 32 :=
        (length_le_distinct values.nodup_dedup fun u hu => hcall (List.mem_dedup.mp hu)).trans_lt hpool
      have hiff := numbers_buildSorted_iff ht h ((length_le_distinct h.nodup hdict).trans hpool.le) hlen
      have hmem := (dictionary_spec ht values).2
      have hnext : after (.ok (enc, last)) (.buildSorted values) = .ok (enc.sorted values, values) := by
        simp only [after, bind_ok, Call.run, buildSorted_eq ht enc hlen, pure_eq_ok, Call.values]
      rw [hnext]
      by_cases hsub : enc.dictionary ⊆ values
      · have hnumbers := hiff.mpr hsub
        have hvalues := decode_sorted ht enc hlen
        refine (ih hrest hnumbers hvalues (fun u hu => hcall ((hmem u).mp hu))
          ⟨_, _, rfl, hvalues, hnumbers⟩).trans ?_
        have hcovers : ∀ later : Call t, later.Covers (.build (enc.sorted values).dictionary) ↔
            later.Covers (.buildSorted values) := fun later =>
          ⟨fun h' => h'.mono fun u hu => (hmem u).mpr hu, fun h' => h'.mono fun u hu => (hmem u).mp hu⟩
        constructor
        · intro h'
          obtain ⟨hlater, hpairs⟩ := h'
          have hlater' := fun b hb => (hcovers b).mp (hlater b hb)
          exact ⟨⟨hsub, fun b hb => (hlater' b hb).mono hsub⟩, hlater', hpairs⟩
        · intro h'
          obtain ⟨-, hlater, hpairs⟩ := h'
          exact ⟨fun b hb => (hcovers b).mpr (hlater b hb), hpairs⟩
      · refine iff_of_false (fun h' => ?_) fun h' => hsub h'.1.1
        obtain ⟨enc', values', heq, -, hnumbers⟩ := h'.head
        cases heq
        exact hsub (hiff.mp hnumbers)

/-- **On a fresh encoder every call leaves the indices right and the map the inverse of
the dictionary exactly when no sorted call lacks a value of an earlier call.** -/
theorem rebuilds_consistent_iff {calls : List (Call t)} (hlen : (calls.flatMap Call.values).dedup.length < 2 ^ 32) :
    Throughout after Consistent (.ok ({}, [])) calls ↔ calls.Pairwise fun a b => b.Covers a := by
  rw [throughout_consistent_iff ht hlen (fun call hcall v hv => List.mem_flatMap.mpr ⟨call, hcall, hv⟩)
    Numbers.empty rfl (List.nil_subset _), and_iff_right]
  intro call _
  cases call with
  | build => exact trivial
  | buildSorted values => exact List.nil_subset _

end Runs

theorem rebuilds_consistent_build_sorted :
    Throughout after Consistent (.ok ({}, []))
        ([.build [7, -5, 7], .buildSorted [9, -5, 7], .build [9, 1]] : List (Call .int32)) ↔
      ([.build [7, -5, 7], .buildSorted [9, -5, 7], .build [9, 1]] : List (Call .int32)).Pairwise
        fun a b => b.Covers a :=
  rebuilds_consistent_iff (t := .int32) rfl (by decide)

/-- The 5 of the first call keeps number 0, which is now that of 7, and is decoded as 7. -/
def staleCalls : List (Call .int32) := [.build [5], .buildSorted [7], .build [5]]

theorem staleCalls_not_consistent :
    (staleCalls.flatMap Call.values).dedup.length < 2 ^ 32 ∧
      ¬ Throughout after Consistent (.ok ({}, [])) staleCalls ∧
      ((staleCalls.foldl after (.ok ({}, []))).bind fun s => decode s.1 s.1.indices) = .ok [7] := by
  have hlen : (staleCalls.flatMap Call.values).dedup.length < 2 ^ 32 := by decide
  refine ⟨hlen, fun h => ?_, rfl⟩
  obtain ⟨-, -, -, enc, values, heq, hdecode, -⟩ := h
  cases heq
  cases hdecode

end DictionaryEncoder

end ColumnarStore.Standalone.Dictionary
