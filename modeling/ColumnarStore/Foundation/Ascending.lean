import Mathlib

/-! Lists ascending in a key.

The entries of an ordered map come out in ascending key order. On such a list a
cursor that skips to a lower bound and stops at an upper one selects exactly the
entries whose key lies between the two. -/
namespace ColumnarStore.Foundation

/-- Strictly ascending in the key `f`. -/
def Ascending {α κ : Type*} [LT κ] (f : α → κ) (l : List α) : Prop := l.Pairwise fun x y => f x < f y

section LinearOrder
variable {α κ : Type*} [LinearOrder κ] {f : α → κ}

theorem Ascending.tail {x : α} {l : List α} (h : Ascending f (x :: l)) : Ascending f l :=
  (List.pairwise_cons.mp h).2

theorem Ascending.head_lt {x : α} {l : List α} (h : Ascending f (x :: l)) : ∀ y ∈ l, f x < f y :=
  (List.pairwise_cons.mp h).1

theorem Ascending.filter {l : List α} (h : Ascending f l) (p : α → Bool) : Ascending f (l.filter p) :=
  List.Pairwise.filter p h

/-- Skipping the keys below a bound keeps exactly the keys from the bound on. -/
theorem Ascending.dropWhile_lt {l : List α} (h : Ascending f l) (a : κ) :
    (l.dropWhile fun x => decide (f x < a)) = l.filter fun x => decide (a ≤ f x) := by
  induction l with
  | nil => rfl
  | cons x rest ih =>
    by_cases hx : f x < a
    · rw [List.dropWhile_cons_of_pos (by simpa using hx), List.filter_cons_of_neg (by simpa using hx)]
      exact ih h.tail
    · rw [List.dropWhile_cons_of_neg (by simpa using hx), eq_comm, List.filter_eq_self]
      intro y hy
      rcases List.mem_cons.mp hy with rfl | hy
      · simpa using hx
      · simpa using (not_lt.mp hx).trans (h.head_lt y hy).le

/-- Stopping at the first key not below a bound keeps exactly the keys below it. -/
theorem Ascending.takeWhile_lt {l : List α} (h : Ascending f l) (b : κ) :
    (l.takeWhile fun x => decide (f x < b)) = l.filter fun x => decide (f x < b) := by
  induction l with
  | nil => rfl
  | cons x rest ih =>
    by_cases hx : f x < b
    · rw [List.takeWhile_cons_of_pos (by simpa using hx), List.filter_cons_of_pos (by simpa using hx)]
      exact congrArg _ (ih h.tail)
    · rw [List.takeWhile_cons_of_neg (by simpa using hx), eq_comm, List.filter_eq_nil_iff]
      intro y hy
      rcases List.mem_cons.mp hy with rfl | hy
      · simpa using hx
      · simpa using (not_lt.mp hx).trans (h.head_lt y hy).le

/-- A cursor over `[a, b)` visits exactly the entries with a key in that range. -/
theorem Ascending.mem_cursor {l : List α} (h : Ascending f l) (a b : κ) (x : α) :
    x ∈ ((l.dropWhile fun x => decide (f x < a)).takeWhile fun x => decide (f x < b)) ↔
      x ∈ l ∧ a ≤ f x ∧ f x < b := by
  rw [h.dropWhile_lt, (h.filter _).takeWhile_lt]
  simp only [List.mem_filter, decide_eq_true_eq]
  tauto

theorem Ascending.cursor {l : List α} (h : Ascending f l) (a b : κ) :
    Ascending f ((l.dropWhile fun x => decide (f x < a)).takeWhile fun x => decide (f x < b)) := by
  rw [h.dropWhile_lt, (h.filter _).takeWhile_lt]
  exact (h.filter _).filter _

/-- Dropping entries and relabelling the rest, keys kept, stays ascending. -/
theorem Ascending.filterMap {β : Type*} {g : β → κ} {l : List α} (h : Ascending f l)
    (p : α → Option β) (hp : ∀ x y, p x = some y → g y = f x) : Ascending g (l.filterMap p) := by
  refine List.Pairwise.filterMap p (fun x y hxy x' hx' y' hy' => ?_) h
  rw [hp x x' hx', hp y y' hy']
  exact hxy

/-- Lists ascending in a key are the same as soon as they have the same entries. -/
theorem Ascending.ext {l l' : List α} (h : Ascending f l) (h' : Ascending f l') (hmem : ∀ x, x ∈ l ↔ x ∈ l') :
    l = l' := by
  have hnodup : ∀ {l : List α}, Ascending f l → l.Nodup := by
    intro l hl
    refine List.Pairwise.imp (fun {x y} hxy heq => ?_) hl
    exact lt_irrefl _ (heq ▸ hxy)
  refine List.Perm.eq_of_pairwise (fun x y _ _ hxy hyx => ?_) h h'
    ((List.perm_ext_iff_of_nodup (hnodup h) (hnodup h')).mpr hmem)
  exact absurd hxy hyx.asymm

end LinearOrder

end ColumnarStore.Foundation
