import Mathlib

/-! Computations that may fault, run in sequence.

A computation in `Except ε` either faults or returns. These are the rules by which
a proof about a sequence of them follows the sequence: through a bind, through a
loop with an invariant on what is done so far, and through a loop that collects. -/
namespace ColumnarStore.Foundation
universe u v
variable {ε : Type v} {α β σ : Type u}

@[simp] theorem bind_ok (a : α) (f : α → Except ε β) : (Except.ok a >>= f) = f a := rfl

@[simp] theorem bind_error (e : ε) (f : α → Except ε β) : (Except.error e >>= f) = .error e := rfl

@[simp] theorem map_ok (a : α) (f : α → β) : f <$> (Except.ok a : Except ε α) = .ok (f a) := rfl

@[simp] theorem map_error (e : ε) (f : α → β) : f <$> (Except.error e : Except ε α) = .error e := rfl

@[simp] theorem pure_eq_ok (a : α) : (pure a : Except ε α) = .ok a := rfl

theorem bind_eq_ok {x : Except ε α} {f : α → Except ε β} {b : β} :
    (x >>= f) = .ok b ↔ ∃ a, x = .ok a ∧ f a = .ok b := by
  cases x with
  | error e => simp
  | ok a => simp

/-- The value, or a fault in its absence. -/
def orFault (e : ε) : Option α → Except ε α
  | some a => .ok a
  | none => .error e

theorem map_eq_ok {f : α → β} {x : Except ε α} {b : β} : x.map f = .ok b ↔ ∃ a, x = .ok a ∧ f a = b := by
  cases x with
  | error e => exact iff_of_false nofun nofun
  | ok a => simp [Except.map]

@[simp] theorem orFault_some (e : ε) (a : α) : orFault e (some a) = .ok a := rfl

@[simp] theorem orFault_none (e : ε) : orFault e (none : Option α) = .error e := rfl

theorem orFault_eq_ok {e : ε} {x : Option α} {a : α} : orFault e x = .ok a ↔ x = some a := by
  cases x <;> simp [orFault]

/-- A loop over the indices below `n` that keeps an invariant on how far it has come returns. -/
theorem foldlM_range_invariant (f : σ → Nat → Except ε σ) (inv : Nat → σ → Prop) (n : Nat) (s : σ)
    (h : inv 0 s) (step : ∀ k s, k < n → inv k s → ∃ s', f s k = .ok s' ∧ inv (k + 1) s') :
    ∃ s', (List.range n).foldlM f s = .ok s' ∧ inv n s' := by
  induction n with
  | zero => exact ⟨s, rfl, h⟩
  | succ n ih =>
    obtain ⟨s₁, hs₁, h₁⟩ := ih fun k s hk => step k s (Nat.lt_succ_of_lt hk)
    obtain ⟨s₂, hs₂, h₂⟩ := step n s₁ (Nat.lt_succ_self n) h₁
    exact ⟨s₂, by simp [List.range_succ, List.foldlM_append, hs₁, hs₂], h₂⟩

/-- What every step of a loop keeps holds when the loop returns. -/
theorem foldlM_preserves {f : σ → α → Except ε σ} {inv : σ → Prop} {l : List α}
    (step : ∀ a ∈ l, ∀ s s', inv s → f s a = .ok s' → inv s') {s s' : σ} (h : inv s)
    (hloop : l.foldlM f s = .ok s') : inv s' := by
  induction l generalizing s with
  | nil =>
    cases hloop
    exact h
  | cons a rest ih =>
    rw [List.foldlM_cons] at hloop
    obtain ⟨s₁, hfirst, hrest⟩ := bind_eq_ok.mp hloop
    exact ih (fun b hb => step b (List.mem_cons_of_mem a hb)) (step a List.mem_cons_self s s₁ h hfirst) hrest

/-- The same for a loop over the indices below `n`, with an invariant on how far it has come. -/
theorem foldlM_range_preserves {f : σ → Nat → Except ε σ} {inv : Nat → σ → Prop} {n : Nat}
    (step : ∀ k < n, ∀ s s', inv k s → f s k = .ok s' → inv (k + 1) s') {s s' : σ} (h : inv 0 s)
    (hloop : (List.range n).foldlM f s = .ok s') : inv n s' := by
  induction n generalizing s' with
  | zero =>
    cases hloop
    exact h
  | succ n ih =>
    rw [List.range_succ, List.foldlM_append] at hloop
    obtain ⟨s₁, hbefore, hlast⟩ := bind_eq_ok.mp hloop
    obtain ⟨s₂, hstep, hdone⟩ := bind_eq_ok.mp hlast
    cases hdone
    exact step n (Nat.lt_succ_self n) s₁ s' (ih (fun k hk => step k (Nat.lt_succ_of_lt hk)) hbefore) hstep

/-- A loop none of whose steps faults returns. -/
theorem exists_foldlM_ok {f : σ → α → Except ε σ} {l : List α}
    (h : ∀ a ∈ l, ∀ s, ∃ s', f s a = .ok s') (s : σ) : ∃ s', l.foldlM f s = .ok s' := by
  induction l generalizing s with
  | nil => exact ⟨s, rfl⟩
  | cons a rest ih =>
    obtain ⟨s₁, hstep⟩ := h a List.mem_cons_self s
    rw [List.foldlM_cons, hstep]
    exact ih (fun b hb => h b (List.mem_cons_of_mem a hb)) s₁

theorem mapM_eq_ok {f : α → Except ε β} {l : List α} {ys : List β} :
    l.mapM f = .ok ys ↔ List.Forall₂ (fun x y => f x = .ok y) l ys := by
  induction l generalizing ys with
  | nil => simp [eq_comm]
  | cons x rest ih =>
    rw [List.mapM_cons, bind_eq_ok]
    constructor
    · intro h
      obtain ⟨y, hy, htail⟩ := h
      obtain ⟨tail, ht, hys⟩ := bind_eq_ok.mp htail
      cases hys
      exact .cons hy (ih.mp ht)
    · intro h
      rcases h with _ | ⟨hy, htail⟩
      exact ⟨_, hy, by simp [ih.mpr htail]⟩

/-- What a collecting loop found, it found somewhere. -/
theorem exists_of_mem_mapM {f : α → Except ε β} {l : List α} {ys : List β} (h : l.mapM f = .ok ys) {y : β}
    (hy : y ∈ ys) : ∃ x ∈ l, f x = .ok y := by
  obtain ⟨hlen, hall⟩ := List.forall₂_iff_get.mp (mapM_eq_ok.mp h)
  obtain ⟨i, hi, rfl⟩ := List.mem_iff_getElem.mp hy
  exact ⟨_, List.get_mem l ⟨i, hlen ▸ hi⟩, hall i (hlen ▸ hi) hi⟩

/-- What a collecting loop over the first numbers found at each of them. -/
theorem mapM_range_eq_ok {γ : Type} {f : Nat → Except ε γ} {n : Nat} {ys : List γ} :
    (List.range n).mapM f = .ok ys ↔
      ys.length = n ∧ ∀ (i : Nat) (y : γ), ys[i]? = some y → f i = .ok y := by
  rw [mapM_eq_ok, List.forall₂_iff_get]
  constructor
  · intro h
    obtain ⟨hlen, hall⟩ := h
    rw [List.length_range] at hlen
    refine ⟨hlen.symm, fun i y hy => ?_⟩
    obtain ⟨hi, hget⟩ := List.getElem?_eq_some_iff.mp hy
    have h := hall i (by rw [List.length_range]; omega) hi
    rwa [List.get_eq_getElem, List.get_eq_getElem, List.getElem_range, hget] at h
  · intro h
    obtain ⟨hlen, hall⟩ := h
    refine ⟨by rw [List.length_range, hlen], fun i hi hi' => ?_⟩
    rw [List.get_eq_getElem, List.get_eq_getElem, List.getElem_range]
    exact hall i _ (List.getElem?_eq_getElem hi')

theorem getD_of_mapM_range {γ : Type} {f : Nat → Except ε γ} {n : Nat} {ys : List γ}
    (h : (List.range n).mapM f = .ok ys) {i : Nat} (hi : i < n) (d : γ) : f i = .ok (ys.getD i d) := by
  obtain ⟨hlen, hall⟩ := mapM_range_eq_ok.mp h
  refine hall i _ ?_
  rw [List.getElem?_eq_getElem (hlen.symm ▸ hi), List.getD_eq_getElem _ _ (hlen.symm ▸ hi)]

/-- A collecting loop none of whose steps faults is a map. -/
theorem mapM_ok {f : α → Except ε β} {g : α → β} {l : List α} (h : ∀ x ∈ l, f x = .ok (g x)) :
    l.mapM f = .ok (l.map g) := by
  rw [mapM_eq_ok, List.forall₂_map_right_iff]
  exact List.forall₂_same.mpr h

/-- A window of a list, read element by element. -/
theorem mapM_window_ok {γ : Type} (e : ε) (d : γ) {xs : List γ} {i n : Nat} (h : i + n ≤ xs.length) :
    ((List.range n).mapM fun j => orFault e xs[i + j]?) = .ok ((List.range n).map fun j => xs.getD (i + j) d) := by
  refine mapM_ok fun j hj => ?_
  have hin : i + j < xs.length := by
    have := List.mem_range.mp hj
    omega
  rw [List.getElem?_eq_getElem hin, orFault_some, List.getD_eq_getElem _ _ hin]

/-- What a list made of the first numbers has in the place of one of them. -/
theorem getElem?_map_range {γ : Type*} {n i : Nat} (h : i < n) (f : Nat → γ) :
    ((List.range n).map f)[i]? = some (f i) := by
  rw [List.getElem?_map, List.getElem?_range h]
  rfl

theorem getD_map_range {γ : Type*} {n i : Nat} (h : i < n) (f : Nat → γ) (d : γ) :
    ((List.range n).map f).getD i d = f i := by
  rw [List.getD_eq_getElem?_getD, getElem?_map_range h]
  rfl

theorem exists_mapM_ok {f : α → Except ε β} {l : List α} (h : ∀ x ∈ l, ∃ y, f x = .ok y) :
    ∃ ys, l.mapM f = .ok ys := by
  induction l with
  | nil => exact ⟨[], rfl⟩
  | cons x rest ih =>
    obtain ⟨y, hy⟩ := h x List.mem_cons_self
    obtain ⟨ys, hys⟩ := ih fun x' hx' => h x' (List.mem_cons_of_mem _ hx')
    exact ⟨y :: ys, mapM_eq_ok.mpr (.cons hy (mapM_eq_ok.mp hys))⟩

/-- A test of all elements none of which faults. -/
theorem exists_allM_ok {γ : Type} {f : γ → Except ε Bool} {l : List γ} (h : ∀ x ∈ l, ∃ b, f x = .ok b) :
    ∃ b, l.allM f = .ok b ∧ (b = true ↔ ∀ x ∈ l, f x = .ok true) := by
  induction l with
  | nil => exact ⟨true, rfl, by simp⟩
  | cons x rest ih =>
    obtain ⟨b, hrest, hiff⟩ := ih fun y hy => h y (List.mem_cons_of_mem _ hy)
    obtain ⟨first, hfirst⟩ := h x List.mem_cons_self
    rw [List.allM, hfirst, bind_ok, List.forall_mem_cons, hfirst]
    cases first with
    | false => exact ⟨false, rfl, by simp⟩
    | true => exact ⟨b, hrest, by rw [hiff, and_iff_right rfl]⟩

/-! ### Faults that do not happen -/

/-- The computation does not end in the given fault; it may end in another. -/
def Avoids (e : ε) (x : Except ε α) : Prop := x ≠ .error e

theorem avoids_ok (e : ε) (a : α) : Avoids e (.ok a : Except ε α) := nofun

theorem avoids_error {e e' : ε} (h : e' ≠ e) : Avoids e (.error e' : Except ε α) :=
  fun heq => h (Except.error.inj heq)

theorem avoids_orFault {e e' : ε} (h : e' ≠ e) (x : Option α) : Avoids e (orFault e' x) := by
  cases x with
  | none => exact avoids_error h
  | some a => exact avoids_ok e a

theorem Avoids.bind {e : ε} {x : Except ε α} {f : α → Except ε β} (hx : Avoids e x)
    (hf : ∀ a, x = .ok a → Avoids e (f a)) : Avoids e (x >>= f) := by
  cases x with
  | error e' => exact fun heq => hx (congrArg Except.error (Except.error.inj heq))
  | ok a => exact hf a rfl

/-- A loop avoids what each of its steps avoids. -/
theorem avoids_foldlM {γ : Type*} {e : ε} {f : σ → γ → Except ε σ} {l : List γ}
    (h : ∀ a ∈ l, ∀ s, Avoids e (f s a)) (s : σ) : Avoids e (l.foldlM f s) := by
  induction l generalizing s with
  | nil => exact avoids_ok e s
  | cons a rest ih =>
    rw [List.foldlM_cons]
    exact (h a List.mem_cons_self s).bind fun s₁ _ => ih (fun b hb => h b (List.mem_cons_of_mem a hb)) s₁

theorem avoids_mapM {e : ε} {f : α → Except ε β} {l : List α} (h : ∀ a ∈ l, Avoids e (f a)) :
    Avoids e (l.mapM f) := by
  induction l with
  | nil => exact avoids_ok e _
  | cons a rest ih =>
    rw [List.mapM_cons]
    refine (h a List.mem_cons_self).bind fun b _ => ?_
    exact (ih fun a' ha' => h a' (List.mem_cons_of_mem a ha')).bind fun bs _ => avoids_ok e _

/-- A loop with a step that always ends in a fault ends in it, when no step before ends in another. -/
theorem foldlM_eq_error {γ : Type*} {e : ε} {f : σ → γ → Except ε σ} {before : List γ} {a : γ} {after : List γ}
    (hbefore : ∀ b ∈ before, ∀ s, (∃ s', f s b = .ok s') ∨ f s b = .error e) (hstep : ∀ s, f s a = .error e)
    (s : σ) : (before ++ a :: after).foldlM f s = .error e := by
  induction before generalizing s with
  | nil => rw [List.nil_append, List.foldlM_cons, hstep, bind_error]
  | cons b rest ih =>
    rw [List.cons_append, List.foldlM_cons]
    rcases hbefore b List.mem_cons_self s with h | h
    · obtain ⟨s₁, hs₁⟩ := h
      rw [hs₁]
      exact ih (fun c hc => hbefore c (List.mem_cons_of_mem b hc)) s₁
    · rw [h, bind_error]

/-- The same for a loop over the indices below `n`. -/
theorem foldlM_range_eq_error {e : ε} {f : σ → Nat → Except ε σ} {k n : Nat} (hk : k < n)
    (hbefore : ∀ i < k, ∀ s, (∃ s', f s i = .ok s') ∨ f s i = .error e) (hstep : ∀ s, f s k = .error e) (s : σ) :
    (List.range n).foldlM f s = .error e := by
  have hsplit : List.range n = List.range k ++ k :: List.range' (k + 1) (n - (k + 1)) := by
    rw [← List.range'_succ, List.range_eq_range', List.range_eq_range']
    have h := List.range'_append_1 (s := 0) (m := k) (n := n - (k + 1) + 1)
    rw [Nat.zero_add] at h
    rw [h]
    congr 1
    omega
  rw [hsplit]
  exact foldlM_eq_error (fun i hi => hbefore i (List.mem_range.mp hi)) hstep s

theorem ok_ne_error (a : α) (e : ε) : (Except.ok a : Except ε α) ≠ .error e := by
  intro h
  cases h

theorem not_exists_ok (e : ε) : ¬∃ a, (Except.error e : Except ε α) = .ok a := by
  intro h
  obtain ⟨a, ha⟩ := h
  cases ha

/-- A collecting loop some of whose steps end in one fault, and none in another, ends in it. -/
theorem mapM_eq_error {f : α → Except ε β} {e : ε} {l : List α} (h : ∀ x ∈ l, (∃ y, f x = .ok y) ∨ f x = .error e)
    (hsome : ∃ x ∈ l, f x = .error e) : l.mapM f = .error e := by
  induction l with
  | nil => exact absurd hsome (by simp)
  | cons x rest ih =>
    rw [List.mapM_cons]
    rcases h x List.mem_cons_self with hok | herror
    · obtain ⟨y, hy⟩ := hok
      obtain ⟨z, hz, hfault⟩ := hsome
      have hrest : z ∈ rest := by
        refine (List.mem_cons.mp hz).resolve_left fun heq => ?_
        rw [heq, hy] at hfault
        cases hfault
      rw [hy, bind_ok, ih (fun w hw => h w (List.mem_cons_of_mem x hw)) ⟨z, hrest, hfault⟩, bind_error]
    · rw [herror, bind_error]

/-! ### What an abstraction keeps -/

/-- Two computations that fault alike and return what one abstraction relates, continued by two that do so
from there, fault alike and return what the other relates. -/
theorem map_bind_eq {γ δ : Type u} {abs : α → γ} {abs' : β → δ} {x : Except ε α} {y : Except ε γ}
    {f : α → Except ε β} {g : γ → Except ε δ} (hx : abs <$> x = y) (hf : ∀ a, abs' <$> f a = g (abs a)) :
    abs' <$> (x >>= f) = (y >>= g) := by
  subst hx
  cases x with
  | error e => rfl
  | ok a => exact hf a

theorem map_eq_error {γ : Type u} {abs : α → γ} {x : Except ε α} {e : ε} : abs <$> x = .error e ↔ x = .error e := by
  cases x with
  | error e' => rw [map_error, Except.error.injEq, Except.error.injEq]
  | ok a => exact iff_of_false nofun nofun

end ColumnarStore.Foundation
