import Mathlib.Tactic.TypeStar
import Mathlib.Tactic.Tauto

/-! Properties of runs.

A run makes calls one after the other, each on the state the last one left. A property
of all states it reaches (`Throughout`) is compared with a condition on all calls it
makes (`Along`) by what one call does. -/
namespace ColumnarStore.Foundation

variable {σ α : Type*} (step : σ → α → σ)

/-- Every state of the run satisfies `P`, the first and the last included. -/
def Throughout (P : σ → Prop) (s : σ) : List α → Prop
  | [] => P s
  | a :: rest => P s ∧ Throughout P (step s a) rest

/-- Every call of the run satisfies `C` in the state it is made in. -/
def Along (C : σ → α → Prop) (s : σ) : List α → Prop
  | [] => True
  | a :: rest => C s a ∧ Along C (step s a) rest

variable {step}

theorem Throughout.head {P : σ → Prop} {s : σ} {calls : List α} (h : Throughout step P s calls) : P s := by
  cases calls with
  | nil => exact h
  | cons a rest => exact h.1

/-- A property that holds under an invariant, which exactly the calls that satisfy `C`
preserve, holds throughout the runs of such calls and no others. -/
theorem throughout_iff_along {P : σ → Prop} {C : σ → α → Prop} (Inv : σ → Prop)
    (hsound : ∀ s, Inv s → P s) (hkeep : ∀ s a, Inv s → C s a → Inv (step s a))
    (hneeded : ∀ s a, Inv s → P (step s a) → C s a) {s : σ} (h : Inv s) (calls : List α) :
    Throughout step P s calls ↔ Along step C s calls := by
  induction calls generalizing s with
  | nil => exact iff_of_true (hsound s h) trivial
  | cons a rest ih =>
    constructor
    · intro h'
      obtain ⟨-, hrest⟩ := h'
      have hcall := hneeded s a h hrest.head
      exact ⟨hcall, (ih (hkeep s a h hcall)).mp hrest⟩
    · intro h'
      obtain ⟨hcall, hrest⟩ := h'
      exact ⟨hsound s h, (ih (hkeep s a h hcall)).mpr hrest⟩

/-- The same on runs whose calls satisfy `L`. -/
theorem throughout_iff_along_within {P : σ → Prop} {L C : σ → α → Prop} (Inv : σ → Prop)
    (hsound : ∀ s, Inv s → P s) (hkeep : ∀ s a, Inv s → L s a → C s a → Inv (step s a))
    (hneeded : ∀ s a, Inv s → L s a → P (step s a) → C s a) {s : σ} (h : Inv s) {calls : List α}
    (hcalls : Along step L s calls) : Throughout step P s calls ↔ Along step C s calls := by
  induction calls generalizing s with
  | nil => exact iff_of_true (hsound s h) trivial
  | cons a rest ih =>
    obtain ⟨hL, hwithin⟩ := hcalls
    constructor
    · intro h'
      obtain ⟨-, hrest⟩ := h'
      have hcall := hneeded s a h hL hrest.head
      exact ⟨hcall, (ih (hkeep s a h hL hcall) hwithin).mp hrest⟩
    · intro h'
      obtain ⟨hcall, hrest⟩ := h'
      exact ⟨hsound s h, (ih (hkeep s a h hL hcall) hwithin).mpr hrest⟩

/-- A condition on calls alone. -/
theorem along_of_forall {C : σ → α → Prop} {calls : List α} (h : ∀ a ∈ calls, ∀ s, C s a) (s : σ) :
    Along step C s calls := by
  induction calls generalizing s with
  | nil => trivial
  | cons a rest ih => exact ⟨h a List.mem_cons_self s, ih (fun b hb => h b (List.mem_cons_of_mem a hb)) _⟩

/-- What the calls that satisfy `C` preserve holds after a run of such calls. -/
theorem Along.keeps {C : σ → α → Prop} {Inv : σ → Prop} (hkeep : ∀ s a, Inv s → C s a → Inv (step s a)) {s : σ}
    (h : Inv s) {calls : List α} (hcalls : Along step C s calls) : Inv (calls.foldl step s) := by
  induction calls generalizing s with
  | nil => exact h
  | cons a rest ih => exact ih (hkeep s a h hcalls.1) hcalls.2

theorem along_and {C D : σ → α → Prop} {s : σ} {calls : List α} :
    Along step (fun s a => C s a ∧ D s a) s calls ↔ Along step C s calls ∧ Along step D s calls := by
  induction calls generalizing s with
  | nil => simp [Along]
  | cons a rest ih =>
    simp only [Along, ih]
    tauto

/-- Two conditions that mean the same under an invariant, on a run whose calls satisfy `L`. -/
theorem along_congr {L C D : σ → α → Prop} (Inv : σ → Prop)
    (hiff : ∀ s a, Inv s → L s a → (C s a ↔ D s a))
    (hkeep : ∀ s a, Inv s → L s a → C s a → Inv (step s a)) {s : σ} (h : Inv s) {calls : List α}
    (hcalls : Along step L s calls) : Along step C s calls ↔ Along step D s calls := by
  induction calls generalizing s with
  | nil => exact Iff.rfl
  | cons a rest ih =>
    obtain ⟨hcall, hrest⟩ := hcalls
    constructor
    · intro h'
      obtain ⟨hC, hD⟩ := h'
      exact ⟨(hiff s a h hcall).mp hC, (ih (hkeep s a h hcall hC) hrest).mp hD⟩
    · intro h'
      obtain ⟨hD, hC⟩ := h'
      have hfirst := (hiff s a h hcall).mpr hD
      exact ⟨hfirst, (ih (hkeep s a h hcall hfirst) hrest).mpr hC⟩

end ColumnarStore.Foundation
