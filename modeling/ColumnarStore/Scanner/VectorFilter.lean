import ColumnarStore.Foundation.Blocks
import ColumnarStore.Predicate.Chain

/-! Block masks and the comparison kernels that fill them.

A kernel writes the mask in an order of its own: value by value in the scalar build,
sixteen or eight lanes at a time and then a scalar rest in the vector build. The rest
starts at a multiple of sixteen whatever the number of lanes, so eight-byte values may
be written twice. `kernel_spec`: either build leaves the comparison of each value. -/
namespace ColumnarStore.Scanner
open Foundation Blocks

def kScanBlockSize : Nat := 8192

/-! ### The mask of a block -/

structure BlockFilter where
  mask : List Bool
  sized : mask.length = kScanBlockSize

namespace BlockFilter

def setAll (value : Bool) : BlockFilter := ⟨List.replicate kScanBlockSize value, List.length_replicate⟩

def reset : BlockFilter := setAll true

def load (f : BlockFilter) (i : Nat) : Outcome Bool := orFault .maskIndex f.mask[i]?

def store (f : BlockFilter) (i : Nat) (value : Bool) : Outcome BlockFilter :=
  if i < kScanBlockSize then
    .ok {mask := f.mask.set i value, sized := by rw [List.length_set, f.sized]}
  else .error .maskIndex

/-- One store after another. -/
def storeAll (f : BlockFilter) (stores : List (Nat × Bool)) : Outcome BlockFilter :=
  stores.foldlM (fun f s => f.store s.1 s.2) f

/-- `mask[i] = !mask[i]` for the first `count` positions. -/
def negate (f : BlockFilter) (count : Nat) : Outcome BlockFilter :=
  (List.range count).foldlM (fun f i => do f.store i (!(← f.load i))) f

/-- The positions below `count` that the mask keeps. -/
def survivors (f : BlockFilter) (count : Nat) : Outcome (List Nat) :=
  (List.range count).foldlM (fun rows i => do return if ← f.load i then rows ++ [i] else rows) []

/-- The mask reads `p` on the first `count` positions. -/
def Shows (f : BlockFilter) (count : Nat) (p : Nat → Bool) : Prop :=
  ∀ i, i < count → f.load i = .ok (p i)

theorem load_store {f f' : BlockFilter} {i : Nat} {value : Bool} (h : f.store i value = .ok f') (j : Nat) :
    f'.load j = if i = j then .ok value else f.load j := by
  unfold store at h
  split at h
  · next hi =>
    cases h
    rw [load, load, List.getElem?_set]
    split
    · next heq =>
      rw [if_pos (by rw [f.sized]; exact hi)]
      rfl
    · rfl
  · cases h

section
variable {count : Nat} (hcount : count ≤ kScanBlockSize)
include hcount

theorem shows_setAll (value : Bool) : (setAll value).Shows count fun _ => value := by
  intro i hi
  rw [load, setAll, List.getElem?_replicate, if_pos (by omega)]
  rfl

/-- Stores of values that depend on the position only, in any order and any number of
times each. -/
theorem storeAll_ok {p : Nat → Bool} (order : List Nat) (h : ∀ i ∈ order, i < count)
    (f : BlockFilter) :
    ∃ f', f.storeAll (order.map fun i => (i, p i)) = .ok f' ∧
      ∀ j, f'.load j = if j ∈ order then .ok (p j) else f.load j := by
  induction order generalizing f with
  | nil => exact ⟨f, rfl, fun j => rfl⟩
  | cons i rest ih =>
    have hi : i < kScanBlockSize := (h i List.mem_cons_self).trans_le hcount
    obtain ⟨f₁, h₁⟩ : ∃ f₁, f.store i (p i) = .ok f₁ := ⟨_, if_pos hi⟩
    obtain ⟨f', hf', hload⟩ := ih (fun j hj => h j (List.mem_cons_of_mem _ hj)) f₁
    refine ⟨f', ?_, fun j => ?_⟩
    · rw [storeAll, List.map_cons, List.foldlM_cons, h₁]
      exact hf'
    · rw [hload, load_store h₁]
      by_cases hj : j ∈ rest
      · rw [if_pos hj, if_pos (List.mem_cons_of_mem _ hj)]
      · rw [if_neg hj]
        by_cases heq : i = j
        · cases heq
          rw [if_pos rfl, if_pos List.mem_cons_self]
        · rw [if_neg heq, if_neg (by simp [hj, Ne.symm heq])]

theorem Shows.negate {f : BlockFilter} {p : Nat → Bool} (h : f.Shows count p) :
    ∃ f', f.negate count = .ok f' ∧ f'.Shows count fun i => !p i := by
  obtain ⟨f', hf', hinv⟩ := foldlM_range_invariant
    (fun (f : BlockFilter) i => do f.store i (!(← f.load i)))
    (fun k g => ∀ j, j < count → g.load j = if j < k then .ok (!p j) else .ok (p j)) count f
    (fun j hj => h j hj) (by
      intro k g hk hg
      have hload := hg k hk
      rw [if_neg (lt_irrefl k)] at hload
      obtain ⟨g', hg'⟩ : ∃ g', g.store k (!p k) = .ok g' := ⟨_, if_pos (hk.trans_le hcount)⟩
      refine ⟨g', by rw [hload, bind_ok, hg'], fun j hj => ?_⟩
      rw [load_store hg', hg j hj]
      rcases lt_trichotomy j k with hlt | rfl | hgt
      · rw [if_neg (by omega), if_pos hlt, if_pos (by omega)]
      · rw [if_pos rfl, if_pos (by omega)]
      · rw [if_neg (by omega), if_neg (by omega), if_neg (by omega)])
  exact ⟨f', hf', fun j hj => (hinv j hj).trans (if_pos hj)⟩

omit hcount in
theorem Shows.survivors {f : BlockFilter} {p : Nat → Bool} (h : f.Shows count p) :
    f.survivors count = .ok ((List.range count).filter p) := by
  obtain ⟨rows, hrows, rfl⟩ := foldlM_range_invariant
    (fun rows i => do return if ← f.load i then rows ++ [i] else rows)
    (fun k rows => rows = (List.range k).filter p) count [] rfl (by
      rintro k rows hk rfl
      simp only [h k hk, bind_ok, pure_eq_ok]
      refine ⟨_, rfl, ?_⟩
      rw [List.range_succ, List.filter_append]
      cases hp : p k <;> simp [hp])
  exact hrows

end

end BlockFilter

/-! ### The kernels -/

/-- With `__AVX512F__` or without. -/
inductive Build where
  | scalar | avx512
  deriving DecidableEq, Repr

namespace VectorFilter

/-- The positions of the full vectors of `width` lanes. -/
def lanes (width count : Nat) : List Nat :=
  (List.range (count / width)).flatMap fun i => (List.range width).map (i * width + ·)

/-- The order in which a kernel writes `count` positions. -/
def storeOrder (build : Build) (t : DataType) (count : Nat) : List Nat :=
  match build with
  | .scalar => List.range count
  | .avx512 =>
    let vectors := match t.typeSize with
      | 4 => lanes 16 count
      | 8 => lanes 8 count
      | _ => []
    vectors ++ List.range' (count / 16 * 16) (count - count / 16 * 16)

/-- What a kernel stores. The comparisons below are those of the integer types, which
are the only ones a scan filters with. -/
def kernel (build : Build) (t : DataType) (data : List (Native t)) (compare : Native t → Bool) :
    List (Nat × Bool) :=
  (storeOrder build t data.length).map fun i => (i, compare (data.getD i 0))

def equal (build : Build) (t : DataType) (data : List (Native t)) (value : Native t) :
    List (Nat × Bool) := kernel build t data (· == value)

def lessThan (build : Build) (t : DataType) (data : List (Native t)) (value : Native t) :
    List (Nat × Bool) := kernel build t data fun x => x.slt value

def lessEqual (build : Build) (t : DataType) (data : List (Native t)) (value : Native t) :
    List (Nat × Bool) := kernel build t data fun x => x.sle value

theorem lanes_eq (width count : Nat) : lanes width count = List.range (count / width * width) := by
  have hfull := flatMap_positions width (count / width * width) (count / width)
  rw [Nat.min_self] at hfull
  rw [← hfull, lanes]
  refine List.flatMap_congr fun b hb => ?_
  have hle : (b + 1) * width ≤ count / width * width :=
    Nat.mul_le_mul_right width (List.mem_range.mp hb)
  rw [Nat.succ_mul] at hle
  rw [positions, Nat.min_eq_left (by omega)]

theorem mem_lanes {width count i : Nat} : i ∈ lanes width count ↔ i < count / width * width := by
  rw [lanes_eq, List.mem_range]

/-- Either build writes exactly the positions of the data. -/
theorem mem_storeOrder {build : Build} {t : DataType} (ht : t.isInteger = true) {count i : Nat} :
    i ∈ storeOrder build t count ↔ i < count := by
  cases build with
  | scalar => exact List.mem_range
  | avx512 =>
    have hvectors : ∀ {vectors : List Nat}, (∀ j ∈ vectors, j < count) →
        (∀ j, j < count / 16 * 16 → j ∈ vectors) →
        (i ∈ vectors ++ List.range' (count / 16 * 16) (count - count / 16 * 16) ↔ i < count) := by
      intro vectors hin hall
      have hle : count / 16 * 16 ≤ count := Nat.div_mul_le_self _ _
      rw [List.mem_append, List.mem_range'_1]
      constructor
      · intro h'
        rcases h' with h | h
        · exact hin i h
        · omega
      · intro h
        by_cases hlt : i < count / 16 * 16
        · exact .inl (hall i hlt)
        · exact .inr (by omega)
    rcases DataType.eq_of_isInteger ht with rfl | rfl
    · refine hvectors (fun j hj => ?_) fun j hj => mem_lanes.mpr hj
      exact (mem_lanes.mp hj).trans_le (Nat.div_mul_le_self _ _)
    · refine hvectors (fun j hj => ?_) fun j hj => mem_lanes.mpr (by omega)
      exact (mem_lanes.mp hj).trans_le (Nat.div_mul_le_self _ _)

/-- After a kernel the mask shows the comparison. -/
theorem kernel_spec (build : Build) {t : DataType} (ht : t.isInteger = true) {data : List (Native t)}
    (hdata : data.length ≤ kScanBlockSize) (compare : Native t → Bool) (f : BlockFilter) :
    ∃ f', f.storeAll (kernel build t data compare) = .ok f' ∧
      f'.Shows data.length fun i => compare (data.getD i 0) := by
  obtain ⟨f', hf', hload⟩ := BlockFilter.storeAll_ok hdata (p := fun i => compare (data.getD i 0))
    (storeOrder build t data.length) (fun i hi => (mem_storeOrder ht).mp hi) f
  exact ⟨f', hf', fun i hi => (hload i).trans (if_pos ((mem_storeOrder ht).mpr hi))⟩

end VectorFilter

end ColumnarStore.Scanner
