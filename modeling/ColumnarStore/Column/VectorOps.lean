import ColumnarStore.Column
import ColumnarStore.Foundation.Lanes
import ColumnarStore.Scanner.VectorFilter

/-! Sums, minima and maxima of columns.

A reduction takes the full vectors lane by lane and then what is left, so it takes every
value once, in order, whatever the number of lanes. The minimum and the maximum start with
the first value and take it again. -/
namespace ColumnarStore
open Foundation Blocks Scanner

/-! ### Vectors -/

namespace VectorTraits

/-- `Width`. -/
def width (build : Build) (t : DataType) : Nat :=
  match build with
  | .scalar => 1
  | .avx512 =>
    match t.typeSize with
    | 4 => 16
    | 8 => 8
    | _ => 1

theorem width_pos (build : Build) (t : DataType) : 0 < width build t := by
  cases build <;> cases t <;> decide

/-- `Load(data + i)`. -/
def load {t : DataType} (n : Nat) (data : List (Native t)) (i : Nat) : Outcome (Lanes n (8 * t.typeSize)) := do
  let lanes ← (List.range n).mapM fun j => orFault .outOfBounds data[i + j]?
  return fun j => lanes.getD j 0

theorem load_ok {t : DataType} {n i : Nat} {data : List (Native t)} (h : i + n ≤ data.length) :
    load n data i = .ok fun j => data.getD (i + j) 0 := by
  rw [load, mapM_window_ok _ 0 h, bind_ok, pure_eq_ok]
  refine congrArg _ (funext fun j => ?_)
  rw [getD_map_range j.isLt]

end VectorTraits

/-! ### The reductions -/

namespace VectorOps
variable {t : DataType}

/-- The loops of a reduction over vectors of `width` lanes. The scalar type is an integer. -/
def reduce (width : Nat) (f : Native t → Native t → Native t) (init : Native t) (data : List (Native t)) (n : Nat) :
    Outcome (Native t) :=
  if width = 0 then .error .diverges
  else do
    let acc ← (List.range (n / width)).foldlM (fun acc b => do
      let v ← VectorTraits.load width data (b * width)
      return (List.finRange width).foldl (fun acc j => f acc (v j)) acc) init
    (List.range' (n - n % width) (n % width)).foldlM (fun acc i => do
      return f acc (← orFault .outOfBounds data[i]?)) acc

def sum (width : Nat) (data : List (Native t)) (n : Nat) : Outcome (Native t) := reduce width (· + ·) 0 data n

def min (width : Nat) (data : List (Native t)) (n : Nat) : Outcome (Native t) := do
  let first ← orFault .outOfBounds data[0]?
  reduce width (Native.min t) first data n

def max (width : Nat) (data : List (Native t)) (n : Nat) : Outcome (Native t) := do
  let first ← orFault .outOfBounds data[0]?
  reduce width (Native.max t) first data n

end VectorOps

namespace ColumnVector
variable {t : DataType}

/-- `TypedColumn::Sum`, as built. -/
def sum (build : Build) (v : ColumnVector t) : Outcome (Native t) :=
  VectorOps.sum (VectorTraits.width build t) v.data v.size

def min (build : Build) (v : ColumnVector t) : Outcome (Native t) :=
  VectorOps.min (VectorTraits.width build t) v.data v.size

def max (build : Build) (v : ColumnVector t) : Outcome (Native t) :=
  VectorOps.max (VectorTraits.width build t) v.data v.size

end ColumnVector

/-! ### Value by value -/

namespace VectorOps
variable {t : DataType}

/-- Folding the lanes of a vector that is loaded is folding the values one at a time. -/
theorem load_bind_foldl (width : Nat) (f : Native t → Native t → Native t) (data : List (Native t)) (i : Nat)
    (acc : Native t) :
    (VectorTraits.load width data i >>= fun v =>
        .ok ((List.finRange width).foldl (fun acc j => f acc (v j)) acc)) =
      (List.range width).foldlM (fun acc j => do return f acc (← orFault .outOfBounds data[i + j]?)) acc := by
  have hfold := mapM_bind_foldl (fun j => orFault Fault.outOfBounds data[i + j]?) f (List.range width) acc
  rw [← hfold, VectorTraits.load]
  cases hlanes : (List.range width).mapM fun j => orFault Fault.outOfBounds data[i + j]? with
  | error e => rfl
  | ok lanes =>
    have hlen : lanes.length = width := (mapM_range_eq_ok.mp hlanes).1
    subst hlen
    have hmap : (List.finRange lanes.length).map (fun j : Fin lanes.length => lanes.getD j 0) = lanes := by
      conv_rhs => rw [← List.map_get_finRange lanes]
      refine List.map_congr_left fun j _ => ?_
      rw [List.getD_eq_getElem?_getD, List.getElem?_eq_getElem j.isLt]
      rfl
    have hlanes : (List.finRange lanes.length).foldl (fun acc (j : Fin lanes.length) => f acc (lanes.getD j 0)) acc =
        lanes.foldl f acc := by
      conv_rhs => rw [← hmap, List.foldl_map]
    exact congrArg Except.ok hlanes

/-- The width of the vectors does not matter. -/
theorem reduce_eq {width : Nat} (hwidth : 0 < width) (f : Native t → Native t → Native t) (init : Native t)
    (data : List (Native t)) (n : Nat) :
    reduce width f init data n =
      (List.range n).foldlM (fun acc i => do return f acc (← orFault .outOfBounds data[i]?)) init := by
  rw [← foldlM_blocks width n, reduce, if_neg hwidth.ne']
  simp only [pure_eq_ok, load_bind_foldl]

/-- A reduction of values that are there is the fold of the values. -/
theorem reduce_ok {width : Nat} (hwidth : 0 < width) (f : Native t → Native t → Native t) (init : Native t)
    {data : List (Native t)} {n : Nat} (hn : n ≤ data.length) :
    reduce width f init data n = .ok ((data.take n).foldl f init) := by
  have hread : (List.range n).mapM (fun i => orFault Fault.outOfBounds data[i]?) = .ok (data.take n) := by
    refine mapM_range_eq_ok.mpr ⟨by rw [List.length_take, Nat.min_eq_left hn], fun i x hx => ?_⟩
    have hi : i < n := by
      have := (List.getElem?_eq_some_iff.mp hx).1
      rw [List.length_take] at this
      omega
    rw [List.getElem?_take_of_lt hi] at hx
    rw [hx, orFault_some]
  rw [reduce_eq hwidth, ← mapM_bind_foldl, hread, bind_ok]

/-- A sum wraps once or many times. -/
theorem foldl_add (acc : Native t) (xs : List (Native t)) :
    xs.foldl (· + ·) acc = acc + BitVec.ofInt _ (xs.map BitVec.toInt).sum := by
  induction xs generalizing acc with
  | nil => simp
  | cons x rest ih =>
    rw [List.foldl_cons, ih, List.map_cons, List.sum_cons, BitVec.ofInt_add, BitVec.ofInt_toInt, BitVec.add_assoc]

end VectorOps

/-- **With vectors of any width the sum wraps to that of all values, and the minimum and the
maximum are the least and the greatest; a column's do not depend on the build.** -/
theorem reductions_ok {t : DataType} (ht : t.isInteger = true) {width : Nat} (hwidth : 1 ≤ width)
    {data : List (Native t)} {n : Nat} (hpos : 1 ≤ n) (hn : n ≤ data.length) :
    VectorOps.sum width data n = .ok (BitVec.ofInt _ ((data.take n).map BitVec.toInt).sum) ∧
      (∃ least, VectorOps.min width data n = .ok least ∧
        IsLeast {v | v ∈ (data.take n).map BitVec.toInt} least.toInt) ∧
      (∃ greatest, VectorOps.max width data n = .ok greatest ∧
        IsGreatest {v | v ∈ (data.take n).map BitVec.toInt} greatest.toInt) ∧
      ∀ (build : Build) (v : ColumnVector t),
        v.sum build = v.sum .scalar ∧ v.min build = v.min .scalar ∧ v.max build = v.max .scalar := by
  have hfirst : data[0]? = some data[0] := List.getElem?_eq_getElem (by omega)
  have hmem : data[0] ∈ data.take n := List.mem_take_iff_getElem.mpr ⟨0, by omega, rfl⟩
  refine ⟨?_, ?_, ?_, fun build v => ⟨?_, ?_, ?_⟩⟩
  · rw [VectorOps.sum, VectorOps.reduce_ok hwidth _ _ hn, VectorOps.foldl_add, zero_add]
  · refine ⟨_, ?_, (Native.picksLesser_min ht).isLeast_foldl_of_mem hmem⟩
    rw [VectorOps.min, hfirst, orFault_some, bind_ok, VectorOps.reduce_ok hwidth _ _ hn]
  · refine ⟨_, ?_, (Native.picksLesser_max ht).isLeast_foldl_of_mem hmem⟩
    rw [VectorOps.max, hfirst, orFault_some, bind_ok, VectorOps.reduce_ok hwidth _ _ hn]
  · simp only [ColumnVector.sum, VectorOps.sum, VectorOps.reduce_eq (VectorTraits.width_pos _ t)]
  · simp only [ColumnVector.min, VectorOps.min, VectorOps.reduce_eq (VectorTraits.width_pos _ t)]
  · simp only [ColumnVector.max, VectorOps.max, VectorOps.reduce_eq (VectorTraits.width_pos _ t)]

/-- Three values, a vector of two and one left. -/
theorem threeValues_reduced :
    VectorOps.sum 2 ([5, -3, 7] : List (Native .int32)) 3 = .ok 9 ∧
      (∃ least, VectorOps.min 2 ([5, -3, 7] : List (Native .int32)) 3 = .ok least ∧
        IsLeast {v | v ∈ [5, -3, 7]} least.toInt) ∧
      ∃ greatest, VectorOps.max 2 ([5, -3, 7] : List (Native .int32)) 3 = .ok greatest ∧
        IsGreatest {v | v ∈ [5, -3, 7]} greatest.toInt := by
  have h := @reductions_ok .int32 rfl 2 (by decide) [5, -3, 7] 3 (by decide) (by decide)
  exact ⟨h.1.trans (by decide), h.2.1, h.2.2.1⟩

end ColumnarStore
