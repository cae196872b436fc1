import Mathlib

/-! The least value of a list, kept by a loop.

A loop that keeps one of two values at a time, the one of the lesser key, ends with a
value of least key. With the keys in their dual order this is the greatest, and a loop
may keep both. -/
namespace ColumnarStore.Foundation
variable {α κ : Type*} [LinearOrder κ]

/-- One of two values, and no other has a lesser key. -/
structure PicksLesser (f : α → κ) (pick : α → α → α) : Prop where
  either : ∀ a x, pick a x = a ∨ pick a x = x
  le_old : ∀ a x, f (pick a x) ≤ f a
  le_new : ∀ a x, f (pick a x) ≤ f x

namespace PicksLesser
variable {f : α → κ} {pick : α → α → α}

theorem of_ite (h : ∀ a x, pick a x = if f x < f a then x else a) : PicksLesser f pick := by
  refine ⟨fun a x => ?_, fun a x => ?_, fun a x => ?_⟩
  · rw [h]
    exact (ite_eq_or_eq _ x a).symm
  · rw [h]
    split
    · next hlt => exact hlt.le
    · exact le_rfl
  · rw [h]
    split
    · exact le_rfl
    · next hle => exact not_lt.mp hle

theorem mem_foldl (h : PicksLesser f pick) (a : α) (l : List α) : l.foldl pick a ∈ a :: l := by
  induction l generalizing a with
  | nil => exact List.mem_singleton_self a
  | cons x rest ih =>
    rw [List.foldl_cons]
    rcases List.mem_cons.mp (ih (pick a x)) with hsame | hrest
    · rw [hsame]
      rcases h.either a x with hold | hnew
      · rw [hold]
        exact List.mem_cons_self
      · rw [hnew]
        exact List.mem_cons_of_mem _ List.mem_cons_self
    · exact List.mem_cons_of_mem _ (List.mem_cons_of_mem _ hrest)

theorem foldl_le (h : PicksLesser f pick) (a : α) (l : List α) : ∀ x ∈ a :: l, f (l.foldl pick a) ≤ f x := by
  induction l generalizing a with
  | nil =>
    intro x hx
    rw [List.mem_singleton.mp hx]
    exact le_rfl
  | cons x rest ih =>
    have hle := ih (pick a x)
    have hhead := hle _ List.mem_cons_self
    rw [List.foldl_cons, List.forall_mem_cons, List.forall_mem_cons]
    exact ⟨hhead.trans (h.le_old a x), hhead.trans (h.le_new a x), fun y hy => hle y (List.mem_cons_of_mem _ hy)⟩

/-- The loop finds the least of a list if the list has its result. -/
theorem isLeast_foldl_of_result (h : PicksLesser f pick) {a : α} {l : List α}
    (hin : f (l.foldl pick a) ∈ l.map f) : IsLeast {v | v ∈ l.map f} (f (l.foldl pick a)) := by
  refine ⟨hin, fun v hv => ?_⟩
  obtain ⟨x, hx, rfl⟩ := List.mem_map.mp hv
  exact h.foldl_le a l x (List.mem_cons_of_mem _ hx)

/-- From a value of the list. -/
theorem isLeast_foldl_of_mem (h : PicksLesser f pick) {a : α} {l : List α} (ha : a ∈ l) :
    IsLeast {v | v ∈ l.map f} (f (l.foldl pick a)) := by
  refine h.isLeast_foldl_of_result (List.mem_map_of_mem ?_)
  rcases List.mem_cons.mp (h.mem_foldl a l) with hsame | hin
  · rwa [hsame]
  · exact hin

/-- From a value no better than any other. -/
theorem isLeast_foldl (h : PicksLesser f pick) {a : α} (hworst : ∀ x, f x ≤ f a) {l : List α} (hne : l ≠ []) :
    IsLeast {v | v ∈ l.map f} (f (l.foldl pick a)) := by
  refine h.isLeast_foldl_of_result ?_
  rcases List.mem_cons.mp (h.mem_foldl a l) with hsame | hin
  · obtain ⟨x, hx⟩ := List.exists_mem_of_ne_nil l hne
    have hbest := h.foldl_le a l x (List.mem_cons_of_mem _ hx)
    rw [hsame] at hbest ⊢
    exact List.mem_map.mpr ⟨x, hx, le_antisymm (hworst x) hbest⟩
  · exact List.mem_map_of_mem hin

/-- A loop that keeps the least and the greatest. -/
theorem foldl_extremes {lesser greater : α → α → α} (hlo : PicksLesser f lesser)
    (hhi : PicksLesser (fun x => OrderDual.toDual (f x)) greater) (x : α) (rest : List α) {lo hi : α}
    (h : rest.foldl (fun (lo, hi) y => (lesser lo y, greater hi y)) (x, x) = (lo, hi)) :
    lo ∈ x :: rest ∧ hi ∈ x :: rest ∧ ∀ y ∈ x :: rest, f lo ≤ f y ∧ f y ≤ f hi := by
  rw [List.foldl_hom₂ rest Prod.mk lesser greater _ x x fun _ _ _ => rfl] at h
  obtain ⟨rfl, rfl⟩ := Prod.mk.inj h
  exact ⟨hlo.mem_foldl x rest, hhi.mem_foldl x rest, fun y hy => ⟨hlo.foldl_le x rest y hy, hhi.foldl_le x rest y hy⟩⟩

end PicksLesser

/-! ### Values without a key -/

omit [LinearOrder κ] in
/-- A loop that passes over the values without a key, from a value with one. -/
theorem foldl_key {β : Type*} {f : β → Option κ} {pick : β → β → β} {g : κ → κ → κ}
    (h : ∀ a k, f a = some k → ∀ x, f (pick a x) = some ((f x).elim k (g k))) {a : β} {k : κ} (ha : f a = some k)
    (l : List β) : f (l.foldl pick a) = some ((l.filterMap f).foldl g k) := by
  induction l generalizing a k with
  | nil => exact ha
  | cons x rest ih =>
    have hx := h a k ha x
    rw [List.foldl_cons, ih hx, List.filterMap_cons]
    cases f x with
    | none => rfl
    | some kx => rfl

theorem PicksLesser.of_min : PicksLesser (id : κ → κ) min :=
  ⟨min_choice, min_le_left, min_le_right⟩

theorem PicksLesser.of_max : PicksLesser (OrderDual.toDual : κ → κᵒᵈ) max :=
  ⟨max_choice, le_max_left, le_max_right⟩

/-! ### One number more -/

section Insert
variable {s : Set κ} {a m : κ}

/-- The least of a set and one number more is the least of the set unless that number is
below all of it. -/
theorem isLeast_iff_of_insert (h : IsLeast (insert a s) m) : IsLeast s m ↔ ∃ x ∈ s, x ≤ a := by
  obtain ⟨hmem, hlower⟩ := h
  constructor
  · intro h'
    exact ⟨m, h'.1, hlower (Set.mem_insert a s)⟩
  · intro h'
    obtain ⟨x, hx, hle⟩ := h'
    refine ⟨?_, fun y hy => hlower (Set.mem_insert_of_mem a hy)⟩
    rcases Set.mem_insert_iff.mp hmem with rfl | hin
    · have hsame : x = m := le_antisymm hle (hlower (Set.mem_insert_of_mem m hx))
      exact hsame ▸ hx
    · exact hin

theorem isGreatest_iff_of_insert (h : IsGreatest (insert a s) m) : IsGreatest s m ↔ ∃ x ∈ s, a ≤ x :=
  isLeast_iff_of_insert (κ := κᵒᵈ) h

end Insert

end ColumnarStore.Foundation
