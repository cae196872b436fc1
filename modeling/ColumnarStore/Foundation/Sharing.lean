import Mathlib

/-! Work that is shared out.

Worker `t` of `n` takes the jobs `t`, `t + n`, `t + 2n` and so on (`stride`); together
the workers take every job once (`sum_strides`). What workers have and have still to do
is counted in any commutative monoid: when one of them moves, the total loses what that
one loses (`sum_map_set`) or gains what it gains (`sum_map_set_gain`). -/
namespace ColumnarStore.Foundation
variable {M : Type*} [AddCommMonoid M]

/-- The jobs below `m` that a worker at job `i` still takes. -/
def stride (n m i : Nat) : Finset Nat := (Finset.range m).filter fun k => i ≤ k ∧ k % n = i % n

theorem stride_of_ge {n m i : Nat} (h : m ≤ i) : stride n m i = ∅ := by
  refine Finset.filter_eq_empty_iff.mpr fun k hk => ?_
  have hlt := Finset.mem_range.mp hk
  omega

/-- The next job of the same worker comes `n` later. -/
theorem le_or_eq_of_mod_eq {n i k : Nat} (hle : i ≤ k) (hmod : k % n = i % n) : k = i ∨ i + n ≤ k := by
  have hdvd : n ∣ k - i := (Nat.modEq_iff_dvd' hle).mp hmod.symm
  rcases Nat.eq_zero_or_pos (k - i) with hzero | hpos
  · exact .inl (by omega)
  · have hn := Nat.le_of_dvd hpos hdvd
    exact .inr (by omega)

theorem sum_stride_of_lt {n m i : Nat} (hn : 0 < n) (hi : i < m) (y : Nat → M) :
    ∑ k ∈ stride n m i, y k = y i + ∑ k ∈ stride n m (i + n), y k := by
  have hinsert : stride n m i = insert i (stride n m (i + n)) := by
    ext k
    simp only [stride, Finset.mem_insert, Finset.mem_filter, Finset.mem_range, Nat.add_mod_right]
    constructor
    · intro h
      obtain ⟨hk, hle, hmod⟩ := h
      exact (le_or_eq_of_mod_eq hle hmod).imp id fun hle => ⟨hk, hle, hmod⟩
    · intro h
      rcases h with rfl | ⟨hk, hle, hmod⟩
      · exact ⟨hi, le_rfl, rfl⟩
      · exact ⟨hk, by omega, hmod⟩
  have hfresh : i ∉ stride n m (i + n) := by
    simp only [stride, Finset.mem_filter, not_and]
    intro _ hle
    omega
  rw [hinsert, Finset.sum_insert hfresh]

/-- The workers' first strides have every job once. -/
theorem sum_strides {n : Nat} (hn : 0 < n) (m : Nat) (y : Nat → M) :
    ∑ t ∈ Finset.range n, ∑ k ∈ stride n m t, y k = ∑ k ∈ Finset.range m, y k := by
  have hmaps : ∀ k ∈ Finset.range m, k % n ∈ Finset.range n := fun k _ => Finset.mem_range.mpr (Nat.mod_lt k hn)
  rw [← Finset.sum_fiberwise_of_maps_to hmaps y]
  refine Finset.sum_congr rfl fun t ht => Finset.sum_congr ?_ fun _ _ => rfl
  refine Finset.filter_congr fun k _ => ?_
  have htmod : t % n = t := Nat.mod_eq_of_lt (Finset.mem_range.mp ht)
  rw [htmod, and_iff_right_iff_imp]
  rintro rfl
  exact Nat.mod_le k n

/-- What the workers are at when one of them has moved. -/
theorem getElem?_set_moved {α : Type*} {l : List α} {t : Nat} {a : α} (ha : l[t]? = some a) (b : α) (u : Nat) :
    (l.set t b)[u]? = if u = t then some b else l[u]? := by
  rw [List.getElem?_set, if_pos (List.getElem?_eq_some_iff.mp ha).1]
  by_cases hu : u = t
  · rw [if_pos hu.symm, if_pos hu]
  · rw [if_neg (Ne.symm hu), if_neg hu]

/-- One worker moves. -/
theorem sum_map_set {α : Type*} (g : α → M) {l : List α} {t : Nat} {a b : α} {x : M} (ha : l[t]? = some a)
    (h : g a = x + g b) : (l.map g).sum = x + ((l.set t b).map g).sum := by
  induction l generalizing t with
  | nil => cases ha
  | cons c rest ih =>
    cases t with
    | zero =>
      cases ha
      rw [List.set_cons_zero, List.map_cons, List.map_cons, List.sum_cons, List.sum_cons, h, add_assoc]
    | succ t =>
      rw [List.set_cons_succ, List.map_cons, List.map_cons, List.sum_cons, List.sum_cons, ih ha, add_left_comm]

theorem sum_map_set_gain {α : Type*} (g : α → M) {l : List α} {t : Nat} {a b : α} {x : M} (ha : l[t]? = some a)
    (h : g b = x + g a) : ((l.set t b).map g).sum = x + (l.map g).sum := by
  obtain ⟨ht, rfl⟩ := List.getElem?_eq_some_iff.mp ha
  have hb : (l.set t b)[t]? = some b := by simp [ht]
  rw [sum_map_set g hb h, List.set_set, List.set_getElem_self]

/-- Whatever one worker comes to, the others have the same sum. -/
theorem exists_sum_rest {α : Type*} (g : α → M) {l : List α} {t : Nat} {a : α} (ha : l[t]? = some a) :
    ∃ rest, (l.map g).sum = g a + rest ∧ ∀ b, ((l.set t b).map g).sum = g b + rest := by
  induction l generalizing t with
  | nil => cases ha
  | cons c l ih =>
    cases t with
    | zero =>
      cases ha
      exact ⟨(l.map g).sum, List.sum_cons, fun b => List.sum_cons⟩
    | succ t =>
      obtain ⟨rest, hsum, hset⟩ := ih ha
      refine ⟨g c + rest, ?_, fun b => ?_⟩
      · rw [List.map_cons, List.sum_cons, hsum, add_left_comm]
      · rw [List.set_cons_succ, List.map_cons, List.sum_cons, hset, add_left_comm]

theorem sum_map_range (f : Nat → M) (n : Nat) : ((List.range n).map f).sum = ∑ t ∈ Finset.range n, f t :=
  (Multiset.sum_coe _).symm

/-- A sum over a list by positions. -/
theorem sum_range_getD {α : Type*} (f : α → M) (l : List α) (d : α) :
    ∑ k ∈ Finset.range l.length, f (l.getD k d) = (l.map f).sum := by
  induction l with
  | nil => rfl
  | cons a rest ih =>
    rw [List.length_cons, Finset.sum_range_succ', add_comm, List.map_cons, List.sum_cons, ← ih]
    rfl

end ColumnarStore.Foundation
