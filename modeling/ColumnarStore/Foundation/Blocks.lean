import ColumnarStore.Foundation.Outcome

/-! Positions taken block by block, run by run, and filtered in place.

A loop over `n` positions in blocks visits each position once, in order. A sorted
selection cut into runs of consecutive positions is the selection again. Writing the
survivors of a filter over the array that is being read leaves the filtered array. -/
namespace ColumnarStore.Foundation.Blocks
universe u v
variable {α σ : Type u} {ε : Type v}

/-! ### Blocks -/

/-- The positions of block `b` among `n`, in blocks of `size`. -/
def positions (size n b : Nat) : List Nat := (List.range (min size (n - b * size))).map (b * size + ·)

theorem flatMap_positions (size n k : Nat) :
    (List.range k).flatMap (positions size n) = List.range (min (k * size) n) := by
  induction k with
  | zero => simp
  | succ k ih =>
    rw [List.range_succ, List.flatMap_append, ih, List.flatMap_singleton, positions, Nat.succ_mul]
    rcases Nat.le_total (k * size) n with h | h
    · rw [Nat.min_eq_left h, ← List.range_add]
      congr 1
      omega
    · rw [Nat.min_eq_right h, Nat.sub_eq_zero_of_le h, Nat.min_zero, List.range_zero, List.map_nil,
        List.append_nil]
      congr 1
      omega

/-- As many blocks as it takes cover every position once, in order. -/
theorem flatMap_positions_all {size : Nat} (hsize : 0 < size) (n : Nat) :
    (List.range ((n + size - 1) / size)).flatMap (positions size n) = List.range n := by
  rw [flatMap_positions]
  congr 1
  have hlt : n + size - 1 < ((n + size - 1) / size + 1) * size :=
    Nat.lt_mul_of_div_lt (Nat.lt_succ_self _) hsize
  rw [Nat.succ_mul] at hlt
  omega

theorem mem_positions {size n b r : Nat} :
    r ∈ positions size n b ↔ b * size ≤ r ∧ r < b * size + size ∧ r < n := by
  simp only [positions, List.mem_map, List.mem_range]
  constructor
  · intro h
    obtain ⟨i, hi, rfl⟩ := h
    omega
  · intro h
    obtain ⟨hle, hlt, hn⟩ := h
    exact ⟨r - b * size, by omega, by omega⟩

/-- The block of a position is its number divided by the size. -/
theorem div_of_mem_positions {size n b r : Nat} (h : r ∈ positions size n b) : r / size = b := by
  obtain ⟨hle, hlt, -⟩ := mem_positions.mp h
  exact Nat.div_eq_of_lt_le hle (by rw [Nat.succ_mul]; exact hlt)

@[simp] theorem length_positions (size n b : Nat) :
    (positions size n b).length = min size (n - b * size) := by simp [positions]

/-! ### Whole blocks and a rest -/

/-- A loop over blocks of `width` positions is a loop over the positions. -/
theorem foldlM_whole_blocks (width k : Nat) (f : σ → Nat → Except ε σ) (s : σ) :
    (List.range k).foldlM (fun s b => (List.range width).foldlM (fun s j => f s (b * width + j)) s) s =
      (List.range (k * width)).foldlM f s := by
  induction k with
  | zero => simp
  | succ k ih =>
    rw [Nat.succ_mul, List.range_succ, List.foldlM_append, List.range_add, List.foldlM_append, ← ih]
    congr 1
    funext s
    rw [List.foldlM_map, List.foldlM_cons]
    exact bind_pure _

/-- With a loop over what the blocks leave of `n` positions, it is a loop over all of them. -/
theorem foldlM_blocks (width n : Nat) (f : σ → Nat → Except ε σ) (s : σ) :
    ((List.range (n / width)).foldlM
        (fun s b => (List.range width).foldlM (fun s j => f s (b * width + j)) s) s >>=
      (List.range' (n - n % width) (n % width)).foldlM f) = (List.range n).foldlM f s := by
  have hwhole : n / width * width + n % width = n := Nat.div_add_mod' n width
  have hstart : n - n % width = n / width * width := by omega
  have hrange : List.range n = List.range (n / width * width) ++ List.range' (n / width * width) (n % width) := by
    conv_lhs => rw [← hwhole]
    rw [List.range_add, List.range'_eq_map_range]
  rw [foldlM_whole_blocks, hstart, hrange, List.foldlM_append]

/-- The values at the first positions are the first values. -/
theorem map_getD_range {β γ : Type} {d : β} {xs : List β} {n : Nat} (h : n ≤ xs.length) (f : β → γ) :
    ((List.range n).map fun i => f (xs.getD i d)) = (xs.take n).map f := by
  refine List.ext_getElem (by simp [h]) fun i hi _ => ?_
  rw [List.length_map, List.length_range] at hi
  rw [List.getElem_map, List.getElem_map, List.getElem_range, List.getElem_take,
    List.getD_eq_getElem _ _ (hi.trans_le h)]

theorem foldlM_congr {f g : σ → α → Except ε σ} {l : List α} (h : ∀ a ∈ l, ∀ s, f s a = g s a) (s : σ) :
    l.foldlM f s = l.foldlM g s := by
  induction l generalizing s with
  | nil => rfl
  | cons a rest ih =>
    rw [List.foldlM_cons, List.foldlM_cons, h a List.mem_cons_self]
    congr 1
    funext s'
    exact ih (fun b hb => h b (List.mem_cons_of_mem a hb)) s'

/-- Collecting first and folding then is folding what each step finds. -/
theorem mapM_bind_foldl {β τ : Type u} (g : α → Except ε β) (f : τ → β → τ) (l : List α) (s : τ) :
    (l.mapM g >>= fun found => .ok (found.foldl f s)) = l.foldlM (fun s a => do return f s (← g a)) s := by
  induction l generalizing s with
  | nil => rfl
  | cons a rest ih =>
    rw [List.mapM_cons, List.foldlM_cons]
    cases g a with
    | error e => rfl
    | ok b =>
      have htail := ih (f s b)
      cases hrest : rest.mapM g with
      | error e =>
        rw [hrest] at htail
        exact htail
      | ok found =>
        rw [hrest] at htail
        exact htail

/-! ### Runs -/

/-- The runs of a selection that goes on after a run of `n` positions from `first` to
`last`. A run ends where a position is left out, or at `cap` positions. -/
def runsFrom (cap first last n : Nat) : List Nat → List (Nat × Nat)
  | [] => [(first, n)]
  | r :: rest =>
    if r = last + 1 ∧ n < cap then runsFrom cap first r (n + 1) rest
    else (first, n) :: runsFrom cap r r 1 rest

/-- A selection as runs, each its first position and its length. -/
def runs (cap : Nat) : List Nat → List (Nat × Nat)
  | [] => []
  | r :: rest => runsFrom cap r r 1 rest

theorem flatMap_runsFrom (cap first last n : Nat) (rest : List Nat) (h : first + n = last + 1) :
    (runsFrom cap first last n rest).flatMap (fun run => List.range' run.1 run.2) =
      List.range' first n ++ rest := by
  induction rest generalizing first last n with
  | nil => simp [runsFrom]
  | cons r rest ih =>
    rw [runsFrom]
    split
    · next hnext =>
      rw [ih first r (n + 1) (by omega), List.range'_1_concat, List.append_assoc, h, ← hnext.1]
      rfl
    · rw [List.flatMap_cons, ih r r 1 rfl]
      rfl

/-- The runs one after the other are the selection. -/
theorem flatMap_runs (cap : Nat) (rows : List Nat) :
    (runs cap rows).flatMap (fun run => List.range' run.1 run.2) = rows := by
  cases rows with
  | nil => rfl
  | cons r rest => exact flatMap_runsFrom cap r r 1 rest rfl

/-- Their lengths sum up to its length. -/
theorem sum_runs (cap : Nat) (rows : List Nat) : ((runs cap rows).map Prod.snd).sum = rows.length := by
  conv_rhs => rw [← flatMap_runs cap rows]
  rw [List.length_flatMap]
  simp only [List.length_range']

theorem runsFrom_pos (cap first last n : Nat) (rest : List Nat) (h : 0 < n) :
    ∀ run ∈ runsFrom cap first last n rest, 0 < run.2 := by
  induction rest generalizing first last n with
  | nil => simpa [runsFrom] using h
  | cons r rest ih =>
    rw [runsFrom]
    split
    · exact ih first r (n + 1) (Nat.succ_pos n)
    · intro run hrun
      rcases List.mem_cons.mp hrun with rfl | hrun
      · exact h
      · exact ih r r 1 Nat.one_pos run hrun

theorem runs_pos {cap : Nat} {rows : List Nat} : ∀ run ∈ runs cap rows, 0 < run.2 := by
  cases rows with
  | nil => exact fun run hrun => (List.not_mem_nil hrun).elim
  | cons r rest => exact runsFrom_pos cap r r 1 rest Nat.one_pos

/-- The positions of a run are in the selection, so the run ends within any bound on it. -/
theorem run_end_le {cap bound : Nat} {rows : List Nat} (h : ∀ r ∈ rows, r < bound) :
    ∀ run ∈ runs cap rows, run.1 + run.2 ≤ bound := by
  intro run hrun
  have hpos := runs_pos run hrun
  have hlast : run.1 + run.2 - 1 ∈ rows := by
    rw [← flatMap_runs cap rows]
    refine List.mem_flatMap.mpr ⟨run, hrun, ?_⟩
    rw [List.mem_range'_1]
    omega
  have := h _ hlast
  omega

/-! ### Compaction in place -/

/-- One turn of the loop: the element at `k` is tested, and written behind those kept
so far if it passes. -/
def compactStep (test : σ → α → Except ε (Bool × σ)) (outside : ε) (acc : σ × Nat × List α) (k : Nat) :
    Except ε (σ × Nat × List α) := do
  let (s, kept, rows) := acc
  let x ← orFault outside rows[k]?
  let (keep, s) ← test s x
  return if keep then (s, kept + 1, rows.set kept x) else (s, kept, rows)

def compact (test : σ → α → Except ε (Bool × σ)) (outside : ε) (s : σ) (rows : List α) :
    Except ε (σ × List α) := do
  let (s, kept, rows) ← (List.range rows.length).foldlM (compactStep test outside) (s, 0, rows)
  return (s, rows.take kept)

/-- Whatever the test says, no more is left than there was. -/
theorem length_compact_le {test : σ → α → Except ε (Bool × σ)} {outside : ε} {s s' : σ} {rows kept : List α}
    (h : compact test outside s rows = .ok (s', kept)) : kept.length ≤ rows.length := by
  obtain ⟨acc, hloop, hdone⟩ := bind_eq_ok.mp h
  cases hdone
  have hstep : ∀ k < rows.length, ∀ acc acc' : σ × Nat × List α, acc.2.2.length = rows.length →
      compactStep test outside acc k = .ok acc' → acc'.2.2.length = rows.length := by
    intro k _ acc acc' hacc hstep
    obtain ⟨x, -, hstep⟩ := bind_eq_ok.mp hstep
    obtain ⟨verdict, -, hstep⟩ := bind_eq_ok.mp hstep
    cases hstep
    split
    · exact (List.length_set ..).trans hacc
    · exact hacc
  have hlen := foldlM_range_preserves hstep rfl hloop
  exact (List.length_take_le' _ _).trans_eq hlen

/-- Compaction ends in a fault of its test or outside the array. -/
theorem compact_avoids {e outside : ε} {test : σ → α → Except ε (Bool × σ)}
    (htest : ∀ s x, Avoids e (test s x)) (hout : outside ≠ e) (s : σ) (rows : List α) :
    Avoids e (compact test outside s rows) := by
  refine Avoids.bind (avoids_foldlM (fun k _ acc => ?_) (s, 0, rows)) fun _ _ => avoids_ok e _
  exact (avoids_orFault hout _).bind fun x _ => (htest acc.1 x).bind fun _ _ => avoids_ok e _

/-- After `k` turns: what was kept stands in front, and from `k` on the array is as it
was. -/
structure Compacted (p : α → Bool) (rows : List α) (k kept : Nat) (cur : List α) : Prop where
  kept_le : kept ≤ k
  length : cur.length = rows.length
  rest : cur.drop k = rows.drop k
  front : cur.take kept = (rows.take k).filter p

theorem Compacted.step {p : α → Bool} {rows : List α} {k kept : Nat} {cur : List α}
    (h : Compacted p rows k kept cur) (hk : k < rows.length) :
    cur[k]? = some rows[k] ∧
      (p rows[k] = false → Compacted p rows (k + 1) kept cur) ∧
      (p rows[k] = true → Compacted p rows (k + 1) (kept + 1) (cur.set kept rows[k])) := by
  obtain ⟨hle, hlen, hrest, hfront⟩ := h
  have hcur : cur[k]? = some rows[k] := by
    have hhead := congrArg List.head? hrest
    rw [List.head?_drop, List.head?_drop] at hhead
    rw [hhead, List.getElem?_eq_getElem hk]
  have hnext : cur.drop (k + 1) = rows.drop (k + 1) := by
    rw [← List.drop_drop, ← List.drop_drop, hrest]
  have htake : rows.take (k + 1) = rows.take k ++ [rows[k]] := List.take_succ_eq_append_getElem hk
  refine ⟨hcur, fun hp => ⟨Nat.le_succ_of_le hle, hlen, hnext, ?_⟩, fun hp => ?_⟩
  · rw [hfront, htake, List.filter_append]
    simp [hp]
  · have hin : kept < cur.length := by omega
    refine ⟨Nat.succ_le_succ hle, by simpa using hlen, ?_, ?_⟩
    · rw [List.drop_set_of_lt (by omega), hnext]
    · rw [List.take_succ_eq_append_getElem (by simpa using hin), List.take_set_of_le (Nat.le_refl kept),
        List.getElem_set_self, hfront, htake, List.filter_append]
      simp [hp]

/-- When the test decides a predicate whatever its state, the array is filtered. -/
theorem compact_ok {test : σ → α → Except ε (Bool × σ)} {p : α → Bool} {rows : List α}
    (htest : ∀ s, ∀ x ∈ rows, ∃ s', test s x = .ok (p x, s')) (outside : ε) (s : σ) :
    ∃ s', compact test outside s rows = .ok (s', rows.filter p) := by
  obtain ⟨⟨s', kept, cur⟩, hrun, hcompacted⟩ := foldlM_range_invariant (compactStep test outside)
    (fun k acc => Compacted p rows k acc.2.1 acc.2.2) rows.length (s, 0, rows)
    ⟨Nat.le_refl 0, rfl, rfl, rfl⟩ (by
      rintro k ⟨s, kept, cur⟩ hk hcompacted
      obtain ⟨hcur, hdrop, hkeep⟩ := hcompacted.step hk
      obtain ⟨s', hs'⟩ := htest s rows[k] (List.getElem_mem hk)
      simp only [compactStep, hcur, orFault_some, bind_ok, hs', pure_eq_ok]
      cases hp : p rows[k] with
      | false => exact ⟨_, rfl, hdrop hp⟩
      | true => exact ⟨_, rfl, hkeep hp⟩)
  have hfront := hcompacted.front
  rw [List.take_length] at hfront
  refine ⟨s', ?_⟩
  rw [compact, hrun, bind_ok]
  exact congrArg (fun kept => Except.ok (s', kept)) hfront

/-- Compaction ends in the fault that its test ends in everywhere. -/
theorem compact_eq_error {test : σ → α → Except ε (Bool × σ)} {e : ε} {rows : List α} (hrows : rows ≠ [])
    (htest : ∀ s, ∀ x ∈ rows, test s x = .error e) (outside : ε) (s : σ) :
    compact test outside s rows = .error e := by
  obtain ⟨x, rest, rfl⟩ := List.exists_cons_of_ne_nil hrows
  have hfirst : compactStep test outside (s, 0, x :: rest) 0 = .error e := by
    show (test s x >>= _) = _
    rw [htest s x List.mem_cons_self, bind_error]
  rw [compact, List.length_cons, List.range_succ_eq_map, List.foldlM_cons, hfirst, bind_error, bind_error]

end ColumnarStore.Foundation.Blocks
