import ColumnarStore.Floats
import ColumnarStore.ZoneMap.Bounds

/-! Zone maps over floating point columns.

The bounds are those of the numbers of a block, NaNs passed over, unless the first valid value is a
NaN: then nothing compares with it and both bounds stay NaN. So a block can be skipped although a
row matches in exactly two ways (`float_missed_iff`). -/
namespace ColumnarStore
open Foundation Predicates

/-- A comparison of two values of a type; with a NaN only `≠` holds. -/
def Predicates.CompareOp.compares (op : CompareOp) (t : DataType) (x v : Native t) : Bool :=
  match op with
  | eq => Native.eq t x v
  | ne => !Native.eq t x v
  | lt => Native.lt t x v
  | le => Native.lt t x v || Native.eq t x v
  | gt => Native.lt t v x
  | ge => Native.lt t v x || Native.eq t v x

namespace Native
variable {t : DataType}

/-- Numbers compare as their keys do. -/
theorem compares_number {x v : Native t} {k l : Int} (hx : key t x = some k) (hv : key t v = some l) (op : CompareOp) :
    op.compares t x v = op.holds k l := by
  cases op with
  | eq => simp [CompareOp.compares, CompareOp.holds, eq, hx, hv]
  | ne => simp [CompareOp.compares, CompareOp.holds, eq, hx, hv]
  | lt => simp [CompareOp.compares, CompareOp.holds, lt, hx, hv]
  | le => simp [CompareOp.compares, CompareOp.holds, lt, eq, hx, hv, le_iff_lt_or_eq]
  | gt => simp [CompareOp.compares, CompareOp.holds, lt, hx, hv]
  | ge => simp [CompareOp.compares, CompareOp.holds, lt, eq, hx, hv, le_iff_lt_or_eq]

theorem compares_nan {x v : Native t} (h : key t x = none ∨ key t v = none) (op : CompareOp) :
    op.compares t x v = decide (op = .ne) := by
  have hlt : lt t x v = false ∧ lt t v x = false ∧ eq t x v = false ∧ eq t v x = false := by
    unfold lt eq
    rcases h with h | h
    all_goals
      rw [h]
      refine ⟨?_, ?_, ?_, ?_⟩ <;> split <;> simp_all
  obtain ⟨hlt, hgt, heq, heq'⟩ := hlt
  cases op <;> simp [CompareOp.compares, hlt, hgt, heq, heq']

theorem eq_eq_true {x v : Native t} : eq t x v = true ↔ ∃ k, key t x = some k ∧ key t v = some k := by
  unfold eq
  cases key t x with
  | none => exact iff_of_false nofun nofun
  | some a =>
    cases key t v with
    | none => exact iff_of_false nofun nofun
    | some b => simp [eq_comm]

/-! ### The pass over a block -/

theorem foldl_nan {x : Native t} (hx : key t x = none) (rest : List (Native t)) : bounds t x rest = (x, x) := by
  have hlt : ∀ y, lt t y x = false ∧ lt t x y = false := by
    intro y
    have h := compares_nan (.inl hx : key t x = none ∨ key t y = none)
    exact ⟨h .gt, h .lt⟩
  unfold bounds
  induction rest with
  | nil => rfl
  | cons y rest ih =>
    rw [List.foldl_cons]
    show rest.foldl _ (min t x y, max t x y) = _
    rw [min, max, (hlt y).1, (hlt y).2]
    exact ih

/-- From a number on, the bounds are those of the block's numbers. -/
theorem bounds_number {x : Native t} {k : Int} (hx : key t x = some k) (rest : List (Native t)) :
    ∃ lo hi, key t (bounds t x rest).1 = some lo ∧ key t (bounds t x rest).2 = some hi ∧
      lo ∈ (x :: rest).filterMap (key t) ∧ hi ∈ (x :: rest).filterMap (key t) ∧
      ∀ l ∈ (x :: rest).filterMap (key t), lo ≤ l ∧ l ≤ hi := by
  have hmin : ∀ a k, key t a = some k → ∀ x, key t (min t a x) = some ((key t x).elim k (Min.min k)) := by
    intro a k ha x
    rw [min, lt, ha]
    cases hx : key t x with
    | none => exact ha
    | some l =>
      show key t (if decide (l < k) = true then x else a) = some (Min.min k l)
      split
      · next hlt => rw [hx, min_eq_right (of_decide_eq_true hlt).le]
      · next hle => rw [ha, min_eq_left (not_lt.mp fun h => hle (decide_eq_true h))]
  have hmax : ∀ a k, key t a = some k → ∀ x, key t (max t a x) = some ((key t x).elim k (Max.max k)) := by
    intro a k ha x
    rw [max, lt, ha]
    cases hx : key t x with
    | none => exact ha
    | some l =>
      show key t (if decide (k < l) = true then x else a) = some (Max.max k l)
      split
      · next hlt => rw [hx, max_eq_right (of_decide_eq_true hlt).le]
      · next hle => rw [ha, max_eq_left (not_lt.mp fun h => hle (decide_eq_true h))]
  have hnumbers : (x :: rest).filterMap (key t) = k :: rest.filterMap (key t) := List.filterMap_cons_some hx
  have hpair : bounds t x rest = (rest.foldl (min t) x, rest.foldl (max t) x) :=
    List.foldl_hom₂ rest Prod.mk (min t) (max t) _ x x fun _ _ _ => rfl
  refine ⟨_, _, by rw [hpair]; exact foldl_key hmin hx rest, by rw [hpair]; exact foldl_key hmax hx rest, ?_, ?_, ?_⟩
  · rw [hnumbers]
    exact PicksLesser.of_min.mem_foldl k _
  · rw [hnumbers]
    exact PicksLesser.of_max.mem_foldl k _
  · rw [hnumbers]
    intro l hl
    exact ⟨PicksLesser.of_min.foldl_le k _ l hl, PicksLesser.of_max.foldl_le k _ l hl⟩

end Native

/-! ### One block -/

namespace ZoneMapEntry
variable {t : DataType}

/-- An entry of a floating point column after an update by the rows of a block. -/
def fpSummary (e : ZoneMapEntry) (t : DataType) (rows : List (Native t × Bool)) : ZoneMapEntry :=
  match validValues rows with
  | [] => {e with nullCount := BitVec.ofNat 32 rows.length, rowCount := BitVec.ofNat 32 rows.length, hasNulls := true}
  | x :: rest =>
    let nullCount := e.nullCount + BitVec.ofNat 32 (lateNulls rows)
    {e with minFp := (Native.bounds t x rest).1.toDouble t
            maxFp := (Native.bounds t x rest).2.toDouble t
            nullCount
            rowCount := BitVec.ofNat 32 rows.length
            hasMinMax := true
            hasNulls := 0 < nullCount}

/-- The pass, from the first valid row on. -/
theorem pass_eq_fpSummary (e : ZoneMapEntry) (rows : List (Native t × Bool)) :
    (match rows.dropWhile (·.2) with
      | [] => {e with nullCount := BitVec.ofNat 32 rows.length, rowCount := BitVec.ofNat 32 rows.length
                      hasNulls := true}
      | first :: rest =>
        let (lo, hi, nullCount) := rest.foldl (scanRow t) (first.1, first.1, e.nullCount)
        {e with minFp := lo.toDouble t, maxFp := hi.toDouble t, nullCount
                rowCount := BitVec.ofNat 32 rows.length, hasMinMax := true, hasNulls := 0 < nullCount}) =
      e.fpSummary t rows := by
  have hvalid := validValues_dropWhile rows
  rw [fpSummary, lateNulls]
  cases hrows : rows.dropWhile (·.2) with
  | nil =>
    rw [hrows] at hvalid
    rw [← hvalid]
    rfl
  | cons first rest =>
    obtain ⟨x, flag⟩ := first
    have hflag : flag = false := by
      have := List.head_dropWhile_not (fun row : Native t × Bool => row.2) (by rw [hrows]; exact List.cons_ne_nil _ _)
      simpa [hrows] using this
    subst hflag
    rw [hrows] at hvalid
    rw [← hvalid]
    simp only [foldl_scanRow]
    rfl

theorem update_floats (ht : t.isFloatingPoint = true) (e : ZoneMapEntry) {data : List (Native t)} (hdata : data ≠ [])
    {nulls : Option (List Bool)} (hnulls : Covers nulls data) :
    e.update t data nulls = .ok (e.fpSummary t (flagged data nulls)) := by
  have hlen : data.length ≠ 0 := fun h => hdata (List.length_eq_zero_iff.mp h)
  have hint : t.isInteger = false := by cases t <;> first | rfl | cases ht
  have hpass := pass_eq_fpSummary e (flagged data nulls)
  rw [length_flagged hnulls] at hpass
  rw [← hpass, update, if_neg hlen, hint, ht, Bool.or_true, if_pos rfl]
  cases nulls with
  | none =>
    simp only [flagged, Option.getD_none, bind_ok, pure_eq_ok, Bool.false_eq_true, if_false]
    cases (data.zip (List.replicate data.length false)).dropWhile (·.2) <;> rfl
  | some flags =>
    simp only [flagged, Option.getD_some, if_pos (hnulls flags rfl), bind_ok, pure_eq_ok, Bool.false_eq_true, if_false]
    cases (data.zip flags).dropWhile (·.2) <;> rfl

/-- Bounds that were converted to `double` are tested as the values themselves. -/
theorem boundsMatch_toDouble (ht : t.isFloatingPoint = true) (lo hi v : Native t) (pred : PredicateType) :
    boundsMatch (Native.eq .double) (Native.lt .double) (lo.toDouble t) (hi.toDouble t) (v.toDouble t) pred =
      boundsMatch (Native.eq t) (Native.lt t) lo hi v pred := by
  cases pred <;> simp only [boundsMatch, Native.lt_toDouble ht, Native.eq_toDouble ht]

/-- Bounds or a constant without a key match `≠` alone. -/
theorem boundsMatch_nan {lo hi v : Native t}
    (h : (Native.key t lo = none ∧ Native.key t hi = none) ∨ Native.key t v = none) (op : CompareOp) :
    boundsMatch (Native.eq t) (Native.lt t) lo hi v op.predicateType = decide (op = .ne) := by
  have hlo : ∀ op : CompareOp, op.compares t lo v = decide (op = .ne) :=
    Native.compares_nan (h.imp_left And.left)
  have hhi : ∀ op : CompareOp, op.compares t hi v = decide (op = .ne) :=
    Native.compares_nan (h.imp_left And.right)
  cases op with
  | eq =>
    show ((Native.lt t lo v || Native.eq t lo v) && (Native.lt t v hi || Native.eq t v hi)) = false
    rw [show (Native.lt t lo v || Native.eq t lo v) = false from hlo .le, Bool.false_and]
  | ne =>
    show (!(Native.eq t lo v && Native.eq t hi v)) = true
    rw [show Native.eq t lo v = false from hlo .eq]
    rfl
  | lt => exact hlo .lt
  | le => exact hlo .le
  | gt => exact hhi .gt
  | ge => exact hhi .ge

/-- Between numbers it is the test of the integer bounds. -/
theorem boundsMatch_number {lo hi v : Native t} {a b k : Int} (hlo : Native.key t lo = some a)
    (hhi : Native.key t hi = some b) (hv : Native.key t v = some k) (op : CompareOp) :
    boundsMatch (Native.eq t) (Native.lt t) lo hi v op.predicateType = true ↔ op.Within a b k := by
  have hle : ∀ {x y : Int}, (decide (x < y) || decide (x = y)) = true ↔ x ≤ y := by
    intro x y
    rw [Bool.or_eq_true, decide_eq_true_eq, decide_eq_true_eq]
    omega
  cases op with
  | ne => simp [boundsMatch, CompareOp.predicateType, CompareOp.Within, Native.eq, hlo, hhi, hv, imp_iff_not_or]
  | _ => simp [boundsMatch, CompareOp.predicateType, CompareOp.Within, Native.lt, Native.eq, hlo, hhi, hv, hle]

/-- The entry of a block with a valid row: behind a NaN it matches `≠` alone, behind a number what the
numbers of the block reach, and `≠` if the constant is a NaN. -/
theorem canMatch_fpSummary (ht : t.isFloatingPoint = true) (e : ZoneMapEntry) {rows : List (Native t × Bool)}
    {x : Native t} {rest : List (Native t)} (hrows : validValues rows = x :: rest) (hcount : rows.length % 2 ^ 32 ≠ 0)
    (op : CompareOp) (v : Native t) :
    (Native.key t x = none → ((e.fpSummary t rows).canMatch t op.predicateType v = true ↔ op = .ne)) ∧
      (Native.key t x ≠ none → Native.key t v = none →
        ((e.fpSummary t rows).canMatch t op.predicateType v = true ↔ op = .ne)) ∧
      (Native.key t x ≠ none → ∀ k, Native.key t v = some k →
        ((e.fpSummary t rows).canMatch t op.predicateType v = true ↔
          Reaches op ((x :: rest).filterMap (Native.key t)) k)) := by
  have hnull : op.predicateType ≠ .isNull ∧ op.predicateType ≠ .isNotNull := by
    cases op <;> exact ⟨by decide, by decide⟩
  have hint : t.isInteger = false := by cases t <;> first | rfl | cases ht
  have hmatch : (e.fpSummary t rows).canMatch t op.predicateType v =
      boundsMatch (Native.eq t) (Native.lt t) (Native.bounds t x rest).1 (Native.bounds t x rest).2 v
        op.predicateType := by
    rw [← boundsMatch_toDouble ht]
    simp only [fpSummary, hrows, canMatch, Bool.not_true, Bool.false_eq_true, if_false, hnull.1, hnull.2,
      rowCount_eq_zero_iff, hcount, hint, ht, if_true]
  rw [hmatch]
  refine ⟨fun hx => ?_, fun hx hv => ?_, fun hx k hv => ?_⟩
  · rw [Native.foldl_nan hx, boundsMatch_nan (.inl ⟨hx, hx⟩), decide_eq_true_iff]
  · rw [boundsMatch_nan (.inr hv), decide_eq_true_iff]
  · obtain ⟨l, hl⟩ := Option.ne_none_iff_exists'.mp hx
    obtain ⟨lo, hi, hlo, hhi, hloIn, hhiIn, hall⟩ := Native.bounds_number hl rest
    rw [boundsMatch_number hlo hhi hv, within_iff_reaches hloIn hhiIn hall]

end ZoneMapEntry

/-! ### A fresh map -/

namespace ZoneMap
variable {t : DataType}

theorem build_floats (ht : t.isFloatingPoint = true) {blockRows : Nat} (hpos : 0 < blockRows)
    {data : List (Native t)} {nulls : Option (List Bool)} (hnulls : Covers nulls data) :
    buildFromColumn {blockRows} t data nulls = .ok
      { entries := (List.range (blocksFor blockRows data.length)).map fun b =>
          ZoneMapEntry.fpSummary {} t (block blockRows b (flagged data nulls))
        blockRows } := by
  have hentries : ((List.range (blocksFor blockRows data.length)).mapM fun b =>
      (([] : List ZoneMapEntry).getD b {}).update t (block blockRows b data) (nulls.map (List.drop (b * blockRows)))) =
      .ok ((List.range (blocksFor blockRows data.length)).map fun b =>
        ZoneMapEntry.fpSummary {} t (block blockRows b (flagged data nulls))) := by
    refine mapM_ok fun b hb => ?_
    rw [List.getD_nil, ZoneMapEntry.update_floats ht _ (block_ne_nil (List.mem_range.mp hb)) (covers_block hnulls _ b),
      block_flagged]
  simp only [buildFromColumn, if_neg hpos.ne', hentries, bind_ok, pure_eq_ok]

/-- Block `b` is skipped although one of its valid rows compares so with the constant. -/
def Misses (zm : ZoneMap) (values : List (Native t)) (nulls : Option (List Bool)) (blockRows b : Nat) (op : CompareOp)
    (v : Native t) : Prop :=
  zm.shouldScanBlock b t op.predicateType v = false ∧
    ∃ x ∈ validIn values nulls blockRows b, op.compares t x v = true

/-- A NaN in front compares as none of the comparisons but `≠`. -/
theorem misses_behind_nan {x v : Native t} {rest : List (Native t)} {op : CompareOp} (hx : Native.key t x = none) :
    (op ≠ .ne ∧ ∃ y ∈ x :: rest, op.compares t y v = true) ↔ op ≠ .ne ∧ ∃ y ∈ rest, op.compares t y v = true := by
  rw [and_congr_right_iff]
  intro hop
  have hfirst : op.compares t x v = false := by rw [Native.compares_nan (.inl hx), decide_eq_false hop]
  simp [hfirst]

/-- Numbers that are all equal to the constant, and a NaN among them. -/
theorem misses_behind_number {x v : Native t} {rest : List (Native t)} {op : CompareOp} {l k : Int}
    (hx : Native.key t x = some l) (hv : Native.key t v = some k) :
    (¬Reaches op ((x :: rest).filterMap (Native.key t)) k ∧ ∃ y ∈ x :: rest, op.compares t y v = true) ↔
      op = .ne ∧ Native.eq t x v = true ∧ (∀ y ∈ rest, Native.key t y = none ∨ Native.eq t y v = true) ∧
        ∃ y ∈ rest, Native.key t y = none := by
  constructor
  · intro h
    obtain ⟨hreaches, y, hy, hholds⟩ := h
    have hnan : Native.key t y = none := by
      by_contra hnumber
      obtain ⟨m, hm⟩ := Option.ne_none_iff_exists'.mp hnumber
      rw [Native.compares_number hm hv] at hholds
      exact hreaches (.inl ⟨m, List.mem_filterMap.mpr ⟨y, hy, hm⟩, hholds⟩)
    have hop : op = .ne := by
      rw [Native.compares_nan (.inl hnan)] at hholds
      exact of_decide_eq_true hholds
    subst hop
    have hall : ∀ y ∈ x :: rest, Native.key t y = none ∨ Native.eq t y v = true := by
      intro z hz
      cases hkey : Native.key t z with
      | none => exact .inl rfl
      | some m =>
        refine .inr (Native.eq_eq_true.mpr ⟨m, hkey, ?_⟩)
        by_contra hne
        refine hreaches (.inl ⟨m, List.mem_filterMap.mpr ⟨z, hz, hkey⟩, decide_eq_true fun heq => hne ?_⟩)
        rw [hv, heq]
    refine ⟨rfl, (hall x List.mem_cons_self).resolve_left (hx ▸ nofun),
      fun z hz => hall z (List.mem_cons_of_mem x hz), y, ?_, hnan⟩
    refine (List.mem_cons.mp hy).resolve_left ?_
    rintro rfl
    exact absurd (hx.symm.trans hnan) nofun
  · intro h
    obtain ⟨rfl, hfirst, hall, y, hy, hnan⟩ := h
    refine ⟨fun hreaches => ?_, y, List.mem_cons_of_mem x hy, by rw [Native.compares_nan (.inl hnan)]; rfl⟩
    rcases hreaches with ⟨m, hm, hne⟩ | ⟨hop, -⟩
    · obtain ⟨z, hz, hkey⟩ := List.mem_filterMap.mp hm
      have heq : Native.eq t z v = true := by
        rcases List.mem_cons.mp hz with rfl | hz
        · exact hfirst
        · exact (hall z hz).resolve_left (hkey ▸ nofun)
      obtain ⟨n, hn, hn'⟩ := Native.eq_eq_true.mp heq
      cases hkey.symm.trans hn
      cases hv.symm.trans hn'
      exact of_decide_eq_true hne rfl
    · cases hop

/-- **A fresh map over floating point values misses rows of a block in two ways and no other: its first valid
value is a NaN, and a comparison other than `≠` holds of a later one; or the comparison is `≠` with a number that
all numbers of the block equal, the first valid value among them, and a later valid value is a NaN.** -/
theorem float_missed_iff (ht : t.isFloatingPoint = true) {values : List (Native t)} {nulls : Option (List Bool)}
    (hnulls : Covers nulls values) {blockRows : Nat} (hpos : 0 < blockRows) (hblock : blockRows < 2 ^ 32) :
    ∃ zm, buildFromColumn {blockRows} t values nulls = .ok zm ∧
      ∀ b < zm.entries.length, ∀ (op : CompareOp) (v : Native t),
        zm.Misses values nulls blockRows b op v ↔
          ∃ first rest, validIn values nulls blockRows b = first :: rest ∧
            (Native.key t first = none ∧ op ≠ .ne ∧ (∃ y ∈ rest, op.compares t y v = true) ∨
              op = .ne ∧ Native.eq t first v = true ∧
                (∀ y ∈ rest, Native.key t y = none ∨ Native.eq t y v = true) ∧
                ∃ y ∈ rest, Native.key t y = none) := by
  refine ⟨_, build_floats ht hpos hnulls, fun b hb op v => ?_⟩
  rw [List.length_map, List.length_range] at hb
  have hscan : shouldScanBlock ⟨(List.range (blocksFor blockRows values.length)).map fun b =>
      ZoneMapEntry.fpSummary {} t (block blockRows b (flagged values nulls)), blockRows⟩ b t op.predicateType v =
      (ZoneMapEntry.fpSummary {} t (block blockRows b (flagged values nulls))).canMatch t op.predicateType v := by
    rw [shouldScanBlock, getElem?_map_range hb]
    simp only [ht, Bool.or_true, if_true]
    cases op <;> rfl
  unfold Misses
  rw [hscan, Bool.eq_false_iff]
  cases hvalid : validIn values nulls blockRows b with
  | nil =>
    refine iff_of_false (fun h => ?_) (fun h => ?_)
    · obtain ⟨-, x, hx, -⟩ := h
      exact absurd hx List.not_mem_nil
    · obtain ⟨first, rest, hcons, -⟩ := h
      cases hcons
  | cons x rest =>
    have hcount : (block blockRows b (flagged values nulls)).length % 2 ^ 32 ≠ 0 := by
      have hle := length_block_le blockRows b (flagged values nulls)
      have hne : (block blockRows b (flagged values nulls)).length ≠ 0 := by
        intro hzero
        rw [validIn, List.length_eq_zero_iff.mp hzero] at hvalid
        cases hvalid
      omega
    obtain ⟨hnan, hconstant, hnumber⟩ := ZoneMapEntry.canMatch_fpSummary ht {} hvalid hcount op v
    have hcons : ∀ {P : Native t → List (Native t) → Prop},
        (∃ first later, x :: rest = first :: later ∧ P first later) ↔ P x rest := by
      intro P
      constructor
      · rintro ⟨first, later, heq, h⟩
        cases heq
        exact h
      · exact fun h => ⟨x, rest, rfl, h⟩
    rw [hcons]
    by_cases hx : Native.key t x = none
    · have heq : ¬Native.eq t x v = true := by
        intro heq
        obtain ⟨k, hk, -⟩ := Native.eq_eq_true.mp heq
        cases hx.symm.trans hk
      rw [ne_eq, hnan hx, ← ne_eq, misses_behind_nan hx]
      rw [and_iff_right hx, or_iff_left fun h => heq h.2.1]
    · obtain ⟨l, hl⟩ := Option.ne_none_iff_exists'.mp hx
      rw [iff_false_intro hx, false_and, false_or]
      cases hv : Native.key t v with
      | none =>
        refine iff_of_false (fun h => ?_) (fun h => ?_)
        · obtain ⟨hskipped, y, -, hholds⟩ := h
          rw [Native.compares_nan (.inr hv)] at hholds
          exact hskipped ((hconstant hx hv).mpr (of_decide_eq_true hholds))
        · obtain ⟨k, -, hk⟩ := Native.eq_eq_true.mp h.2.1
          cases hv.symm.trans hk
      | some k =>
        rw [ne_eq, hnumber hx k hv]
        exact misses_behind_number hl hv

/-- A NaN in front of a 1. -/
theorem nanFirst_missed :
    ∃ zm, buildFromColumn {blockRows := 2} .float [0x7FC00000, 0x3F800000] none = .ok zm ∧
      zm.Misses (t := .float) [0x7FC00000, 0x3F800000] none 2 0 .eq 0x3F800000 := by
  obtain ⟨zm, hbuilt, hmissed⟩ := float_missed_iff (t := .float) rfl
    (covers_none [0x7FC00000, 0x3F800000]) (show 0 < 2 by decide) (by decide)
  have hlength : zm.entries.length = 1 := by
    have h := build_floats (t := .float) rfl (show 0 < 2 by decide) (covers_none [0x7FC00000, 0x3F800000])
    rw [hbuilt] at h
    rw [Except.ok.inj h]
    rfl
  refine ⟨zm, hbuilt, (hmissed 0 (hlength ▸ Nat.one_pos) .eq 0x3F800000).mpr ?_⟩
  exact ⟨0x7FC00000, [0x3F800000], by decide, .inl ⟨by decide, by decide, 0x3F800000, by decide, by decide⟩⟩

end ZoneMap

end ColumnarStore
