import ColumnarStore.Foundation.LittleEndian

/-! Lists numbered by a map.

A list without repetitions is numbered by a map that gives each of its values its
position, as a machine word, and no other value anything. Appending a new value under
the next number keeps this. Writing all positions over an older map numbers the list
only if that map knows no other value. -/
namespace ColumnarStore.Foundation
variable {α : Type*} {w : Nat} {ids : α → Option (BitVec w)} {dict : List α}

/-- The values of the list have their positions as numbers, and no other value has one. -/
structure Numbers (ids : α → Option (BitVec w)) (dict : List α) : Prop where
  nodup : dict.Nodup
  inverse : ∀ v i, ids v = some i ↔ dict[i.toNat]? = some v

namespace Numbers

theorem empty : Numbers (fun _ : α => (none : Option (BitVec w))) [] :=
  ⟨List.nodup_nil, fun _ _ => by simp⟩

theorem mem (h : Numbers ids dict) {v : α} {i : BitVec w} (hv : ids v = some i) : v ∈ dict :=
  List.mem_of_getElem? ((h.inverse v i).mp hv)

/-- A list whose positions fit a word has all its values numbered. -/
theorem exists_of_mem (h : Numbers ids dict) (hlen : dict.length ≤ 2 ^ w) {v : α} (hv : v ∈ dict) :
    ∃ i, ids v = some i := by
  obtain ⟨k, hk, rfl⟩ := List.getElem_of_mem hv
  have hnat : (BitVec.ofNat w k).toNat = k := toNat_ofNat_of_lt (hk.trans_le hlen)
  refine ⟨BitVec.ofNat w k, (h.inverse _ _).mpr ?_⟩
  rw [hnat, List.getElem?_eq_getElem hk]

theorem eq_none_iff (h : Numbers ids dict) (hlen : dict.length ≤ 2 ^ w) {v : α} : ids v = none ↔ v ∉ dict := by
  constructor
  · intro hv hmem
    obtain ⟨i, hi⟩ := h.exists_of_mem hlen hmem
    rw [hv] at hi
    cases hi
  · intro hmem
    rw [Option.eq_none_iff_forall_not_mem]
    intro i hi
    exact hmem (h.mem hi)

/-- A new value takes the next number. -/
theorem push [DecidableEq α] (h : Numbers ids dict) {v : α} (hv : v ∉ dict) (hlen : dict.length < 2 ^ w) :
    Numbers (Function.update ids v (some (BitVec.ofNat w dict.length))) (dict ++ [v]) := by
  have hnext : (BitVec.ofNat w dict.length).toNat = dict.length := toNat_ofNat_of_lt hlen
  refine ⟨List.nodup_append.mpr ⟨h.nodup, List.nodup_singleton v, ?_⟩, fun u i => ?_⟩
  · intro a ha b hb hab
    rw [List.mem_singleton] at hb
    exact hv (hb ▸ hab ▸ ha)
  · rcases Nat.lt_trichotomy i.toNat dict.length with hlt | heq | hgt
    · have hne : i ≠ BitVec.ofNat w dict.length := by
        intro h'
        rw [h', hnext] at hlt
        exact hlt.false
      rw [List.getElem?_append_left hlt, ← h.inverse]
      by_cases hu : u = v
      · subst hu
        rw [Function.update_self]
        refine iff_of_false (fun h' => hne (Option.some.inj h').symm) fun h' => hv (h.mem h')
      · rw [Function.update_of_ne hu]
    · have hi : i = BitVec.ofNat w dict.length := BitVec.eq_of_toNat_eq (heq.trans hnext.symm)
      rw [List.getElem?_append_right heq.ge, heq, Nat.sub_self, List.getElem?_cons_zero, Option.some.injEq]
      by_cases hu : u = v
      · subst hu
        rw [Function.update_self, hi]
        exact iff_of_true rfl rfl
      · rw [Function.update_of_ne hu, h.inverse, List.getElem?_eq_none heq.ge]
        exact iff_of_false nofun fun h' => hu h'.symm
    · rw [List.getElem?_eq_none (by simp only [List.length_append, List.length_singleton]; omega)]
      refine iff_of_false (fun h' => ?_) nofun
      by_cases hu : u = v
      · subst hu
        rw [Function.update_self] at h'
        rw [← Option.some.inj h', hnext] at hgt
        exact hgt.false
      · rw [Function.update_of_ne hu, h.inverse, List.getElem?_eq_none hgt.le] at h'
        cases h'

end Numbers

/-! ### Positions written over an older map -/

section Positions
variable [DecidableEq α]

/-- The map with the position of every value of the list written over it. -/
def numbersOver (ids : α → Option (BitVec w)) (dict : List α) : α → Option (BitVec w) :=
  fun v => if v ∈ dict then some (BitVec.ofNat w (dict.idxOf v)) else ids v

theorem numbersOver_of_mem (ids : α → Option (BitVec w)) {v : α} (hv : v ∈ dict) :
    numbersOver ids dict v = some (BitVec.ofNat w (dict.idxOf v)) := if_pos hv

/-- Entries of other values stay, so there must have been none. -/
theorem numbers_numbersOver_iff (ids : α → Option (BitVec w)) (hnodup : dict.Nodup) (hlen : dict.length ≤ 2 ^ w) :
    Numbers (numbersOver ids dict) dict ↔ ∀ v ∉ dict, ids v = none := by
  constructor
  · intro h v hv
    have hnone := (h.eq_none_iff hlen).mpr hv
    rwa [numbersOver, if_neg hv] at hnone
  · refine fun h => ⟨hnodup, fun v i => ?_⟩
    by_cases hv : v ∈ dict
    · have hpos : dict.idxOf v < dict.length := List.idxOf_lt_length_of_mem hv
      rw [numbersOver_of_mem ids hv, Option.some.injEq, List.getElem?_eq_some_iff]
      constructor
      · intro hi
        have hnat : i.toNat = dict.idxOf v := by rw [← hi, toNat_ofNat_of_lt (hpos.trans_le hlen)]
        refine ⟨hnat ▸ hpos, ?_⟩
        simp only [hnat, List.getElem_idxOf]
      · intro h'
        obtain ⟨hi, rfl⟩ := h'
        rw [hnodup.idxOf_getElem, BitVec.ofNat_toNat, BitVec.setWidth_eq]
    · rw [numbersOver, if_neg hv, h v hv]
      exact iff_of_false nofun fun h' => hv (List.mem_of_getElem? h')

end Positions

end ColumnarStore.Foundation
