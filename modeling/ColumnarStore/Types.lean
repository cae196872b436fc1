import ColumnarStore.Foundation.Extremes

/-! The data types of a column, and what a running program can do besides returning.

A value of type `t` is its bit pattern, `Native t`; signed comparison and widening
read the pattern as the C++ type does. Undefined behaviour and non-termination are
outcomes of their own (`Fault`), so that a theorem about a result says in particular
that none of them happens. Signed arithmetic wraps, where it is not checked. -/
namespace ColumnarStore

/-! ### Outcomes -/

/-- What ends a computation without a result. -/
inductive Fault where
  /-- An access outside an allocated array. -/
  | outOfBounds
  /-- An index outside the mask of a block. -/
  | maskIndex
  /-- A pop from the interpreter's empty stack. -/
  | emptyStack
  /-- A loop that never ends. -/
  | diverges
  /-- A read past the end of a file, or of header bytes the model keeps as a record. -/
  | unreadable
  /-- A member call through a null pointer. -/
  | nullPointer
  /-- A division by zero. -/
  | divisionByZero
  /-- A shift by the width of its operand or more. -/
  | shiftWidth
  /-- A signed operation without an exact result, where operations are checked. -/
  | signedOverflow
  deriving DecidableEq, Repr

abbrev Outcome (α : Type) := Except Fault α

/-! ### Data types -/

inductive DataType where
  | boolean | int32 | int64 | float | double | varchar
  deriving DecidableEq, Repr

namespace DataType

def typeSize : DataType → Nat
  | boolean => 1
  | int32 => 4
  | int64 => 8
  | float => 4
  | double => 8
  | varchar => 16

def isInteger : DataType → Bool
  | int32 => true
  | int64 => true
  | _ => false

def isFloatingPoint : DataType → Bool
  | float => true
  | double => true
  | _ => false

def isNumeric (t : DataType) : Bool := t.isInteger || t.isFloatingPoint

theorem typeSize_pos (t : DataType) : 0 < t.typeSize := by cases t <;> decide

theorem isInteger_int32 : int32.isInteger = true := rfl

theorem isInteger_int64 : int64.isInteger = true := rfl

theorem eq_of_isInteger {t : DataType} (h : t.isInteger = true) : t = int32 ∨ t = int64 := by
  cases t <;> simp_all [isInteger]

theorem typeSize_of_isInteger {t : DataType} (h : t.isInteger = true) :
    t.typeSize = 4 ∨ t.typeSize = 8 := (eq_of_isInteger h).imp (congrArg _) (congrArg _)

theorem isNumeric_of_isInteger {t : DataType} (h : t.isInteger = true) : t.isNumeric = true := by
  rw [isNumeric, h, Bool.true_or]

theorem typeSize_of_isNumeric {t : DataType} (h : t.isNumeric = true) : t.typeSize = 4 ∨ t.typeSize = 8 := by
  cases t <;> simp_all [isNumeric, isInteger, isFloatingPoint, typeSize]

end DataType

/-- The bit pattern of a value. -/
abbrev Native (t : DataType) : Type := BitVec (8 * t.typeSize)

abbrev Int64Bits := BitVec 64

/-! ### Floating point values, as far as columns compare and convert them -/

/-- The sign-magnitude number of an IEEE pattern with `m` fraction bits and `e`
exponent bits: ordered and equal as the floats are, absent for a NaN. -/
def floatKey (e m bits : Nat) : Option Int :=
  let magnitude := bits % 2 ^ (e + m)
  if (2 ^ e - 1) * 2 ^ m < magnitude then none
  else some (if bits < 2 ^ (e + m) then magnitude else -magnitude)

/-- Conversion to `int64_t`: towards zero, and the processor's indefinite value
where the number does not fit. -/
def floatToInt64 (e m bits : Nat) : Int64Bits :=
  let exponent := bits / 2 ^ m % 2 ^ e
  let fraction := bits % 2 ^ m
  let significand := if exponent = 0 then fraction else 2 ^ m + fraction
  let scale := max exponent 1
  let bias := 2 ^ (e - 1) - 1 + m
  let magnitude := if bias ≤ scale then significand * 2 ^ (scale - bias)
    else significand / 2 ^ (bias - scale)
  if exponent = 2 ^ e - 1 ∨ 2 ^ 63 ≤ magnitude then BitVec.intMin 64
  else if bits < 2 ^ (e + m) then BitVec.ofNat 64 magnitude else -BitVec.ofNat 64 magnitude

/-- Conversion of a `float` to `double`, which is exact. -/
def floatToDouble (x : BitVec 32) : BitVec 64 :=
  let sign := x.toNat / 2 ^ 31
  let exponent := x.toNat / 2 ^ 23 % 2 ^ 8
  let fraction := x.toNat % 2 ^ 23
  let magnitude :=
    if exponent = 255 then 2047 * 2 ^ 52 + fraction * 2 ^ 29
    else if exponent ≠ 0 then (exponent + 896) * 2 ^ 52 + fraction * 2 ^ 29
    else if fraction = 0 then 0
    else
      -- A subnormal float is a normal double: its leading bit becomes implicit.
      let top := Nat.log2 fraction
      (top + 874) * 2 ^ 52 + (fraction - 2 ^ top) * 2 ^ (52 - top)
  BitVec.ofNat 64 (sign * 2 ^ 63 + magnitude)

/-! ### Values -/

namespace Native

/-- The number by which values of the type compare. -/
def key (t : DataType) (x : Native t) : Option Int :=
  match t with
  | .boolean => some x.toNat
  | .int32 => some x.toInt
  | .int64 => some x.toInt
  | .float => floatKey 8 23 x.toNat
  | .double => floatKey 11 52 x.toNat
  | .varchar => none

/-- `x < y`. -/
def lt (t : DataType) (x y : Native t) : Bool :=
  match key t x, key t y with
  | some a, some b => a < b
  | _, _ => false

/-- `x == y`. -/
def eq (t : DataType) (x y : Native t) : Bool :=
  match key t x, key t y with
  | some a, some b => a = b
  | _, _ => false

/-- `std::min(x, y)`: the first unless the second is smaller. -/
def min (t : DataType) (x y : Native t) : Native t := if lt t y x then y else x

/-- `std::max(x, y)`: the first unless it is smaller. -/
def max (t : DataType) (x y : Native t) : Native t := if lt t x y then y else x

/-- `static_cast<int64_t>(x)`. -/
def toInt64 (t : DataType) (x : Native t) : Int64Bits :=
  match t with
  | .boolean => x.setWidth 64
  | .int32 => x.signExtend 64
  | .int64 => x.signExtend 64
  | .float => floatToInt64 8 23 x.toNat
  | .double => floatToInt64 11 52 x.toNat
  | .varchar => 0

/-- The least and the greatest value, in one pass. -/
def bounds (t : DataType) (x : Native t) (rest : List (Native t)) : Native t × Native t :=
  rest.foldl (fun (lo, hi) y => (min t lo y, max t hi y)) (x, x)

/-- `static_cast<double>(x)` of a floating point value. -/
def toDouble (t : DataType) (x : Native t) : BitVec 64 :=
  match t with
  | .float => floatToDouble x
  | .double => x
  | _ => 0

section Integers
variable {t : DataType} (ht : t.isInteger = true)
include ht

theorem key_int (x : Native t) : key t x = some x.toInt := by
  cases t <;> first | rfl | cases ht

theorem lt_int (x y : Native t) : lt t x y = decide (x.toInt < y.toInt) := by
  simp [lt, key_int ht]

theorem eq_int (x y : Native t) : eq t x y = decide (x = y) := by
  simp [eq, key_int ht, BitVec.toInt_inj]

theorem toInt_toInt64 (x : Native t) : (toInt64 t x).toInt = x.toInt := by
  cases t <;> first
    | exact BitVec.toInt_signExtend_of_le (by decide)
    | cases ht

/-- Widening and cutting back to the width of the type. -/
theorem setWidth_toInt64 (x : Native t) : (toInt64 t x).setWidth (8 * t.typeSize) = x := by
  have hext : toInt64 t x = x.signExtend 64 := by
    cases t <;> first | rfl | cases ht
  have hle : 8 * t.typeSize ≤ 64 := by
    rcases DataType.typeSize_of_isInteger ht with h | h <;> omega
  rw [hext]
  refine BitVec.eq_of_getLsbD_eq fun i hi => ?_
  rw [BitVec.getLsbD_setWidth, BitVec.getLsbD_signExtend]
  simp [hi, hi.trans_le hle]

theorem picksLesser_min : Foundation.PicksLesser BitVec.toInt (min t) :=
  .of_ite fun x y => by
    rw [min, lt_int ht]
    simp only [decide_eq_true_eq]

theorem picksLesser_max : Foundation.PicksLesser (fun x => OrderDual.toDual (BitVec.toInt x)) (max t) :=
  .of_ite fun x y => by
    rw [max, lt_int ht]
    simp only [decide_eq_true_eq, OrderDual.toDual_lt_toDual]

theorem bounds_spec (x : Native t) (rest : List (Native t)) :
    (bounds t x rest).1 ∈ x :: rest ∧ (bounds t x rest).2 ∈ x :: rest ∧
      ∀ y ∈ x :: rest,
        (bounds t x rest).1.toInt ≤ y.toInt ∧ y.toInt ≤ (bounds t x rest).2.toInt :=
  (picksLesser_min ht).foldl_extremes (picksLesser_max ht) x rest rfl

end Integers

end Native

/-! ### The enumerations -/

inductive EncodingType where
  | plain | dictionary | rle | bitPack | frameOfReference | zstd | lz4 | delta
  deriving DecidableEq, Repr

inductive PredicateType where
  | equal | notEqual | lessThan | lessEqual | greaterThan | greaterEqual
  | isNull | isNotNull | in | notIn | and | or | not
  deriving DecidableEq, Repr

/-! ### Defaults -/

def kBloomFilterBits : Nat := 2 ^ 20
def kBloomHashFunctions : Nat := 7
def kZoneMapBlockRows : Nat := 65536

end ColumnarStore
