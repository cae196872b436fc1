import ColumnarStore.Types
import ColumnarStore.Foundation.Outcome

/-! Predicates as bytecode, their builder and their interpreter.

`PredicateBuilder` emits instructions as it is called: a leaf pushes its truth value,
and a connective stands where the caller put it, between its operands. The
interpreter therefore defers a connective that finds fewer than two values on the
stack and folds it in after the next comparison. An instruction's operand indexes
the program's own table of constants or columns, in 32 bits. -/
namespace ColumnarStore.Predicates
open Foundation

/-! ### Programs -/

inductive OpCode where
  | nop | loadConst | loadColumn | compareEq | compareNe | compareLt | compareLe | compareGt
  | compareGe | isNull | isNotNull | and | or | not | branchIfFalse | branchIfTrue | return
  | loadMask | andMask | orMask | notMask | popCount | setResult
  deriving DecidableEq, Repr

structure Instruction where
  op : OpCode
  operandA : Nat := 0
  deriving DecidableEq, Repr

structure BytecodeProgram where
  instructions : List Instruction := []
  constants : List Int64Bits := []
  columnIndices : List Nat := []

namespace BytecodeProgram

/-- The program with the constant, and the constant's index. -/
def addConstant (p : BytecodeProgram) (value : Int64Bits) : BytecodeProgram × Nat :=
  ({p with constants := p.constants ++ [value]}, p.constants.length)

def addColumn (p : BytecodeProgram) (colIdx : Nat) : BytecodeProgram × Nat :=
  ({p with columnIndices := p.columnIndices ++ [colIdx]}, p.columnIndices.length)

/-- The operand is a `uint32_t`, whatever index the caller passes. -/
def emit (p : BytecodeProgram) (op : OpCode) (a : Nat := 0) : BytecodeProgram :=
  {p with instructions := p.instructions ++ [⟨op, a % 2 ^ 32⟩]}

/-- Every index into the program's tables is an operand. -/
structure Numbered (p : BytecodeProgram) : Prop where
  constants : p.constants.length ≤ 2 ^ 32
  columnIndices : p.columnIndices.length ≤ 2 ^ 32

end BytecodeProgram

/-! ### Predicates -/

structure Predicate where
  program : BytecodeProgram := {}
  columnPredicates : List PredicateType := []

namespace Predicate

/-- What the four comparison leaves share: the predicate's entry, its constant, its
column and the three instructions. -/
def comparison (p : Predicate) (pred : PredicateType) (op : OpCode) (column : Nat)
    (value : Int64Bits) : Predicate :=
  let (program, constIdx) := p.program.addConstant value
  let (program, colIdx) := program.addColumn column
  { columnPredicates := p.columnPredicates ++ [pred]
    program := ((program.emit .loadColumn colIdx).emit .loadConst constIdx).emit op }

def equal (p : Predicate) (t : DataType) (column : Nat) (value : Native t) : Predicate :=
  p.comparison .equal .compareEq column (value.toInt64 t)

def notEqual (p : Predicate) (t : DataType) (column : Nat) (value : Native t) : Predicate :=
  p.comparison .notEqual .compareNe column (value.toInt64 t)

def lessThan (p : Predicate) (t : DataType) (column : Nat) (value : Native t) : Predicate :=
  p.comparison .lessThan .compareLt column (value.toInt64 t)

def greaterThan (p : Predicate) (t : DataType) (column : Nat) (value : Native t) : Predicate :=
  p.comparison .greaterThan .compareGt column (value.toInt64 t)

/-- What the two null tests share; neither has a constant. -/
def nullTest (p : Predicate) (pred : PredicateType) (op : OpCode) (column : Nat) : Predicate :=
  let (program, colIdx) := p.program.addColumn column
  { columnPredicates := p.columnPredicates ++ [pred]
    program := (program.emit .loadColumn colIdx).emit op }

def isNull (p : Predicate) (column : Nat) : Predicate := p.nullTest .isNull .isNull column

def isNotNull (p : Predicate) (column : Nat) : Predicate := p.nullTest .isNotNull .isNotNull column

def and (p : Predicate) : Predicate := {p with program := p.program.emit .and}

def or (p : Predicate) : Predicate := {p with program := p.program.emit .or}

def not (p : Predicate) : Predicate := {p with program := p.program.emit .not}

end Predicate

/-- One call on a `PredicateBuilder`. -/
inductive BuilderCall where
  | eq (t : DataType) (col : Nat) (val : Native t)
  | ne (t : DataType) (col : Nat) (val : Native t)
  | lt (t : DataType) (col : Nat) (val : Native t)
  | gt (t : DataType) (col : Nat) (val : Native t)
  | null (col : Nat)
  | notNull (col : Nat)
  | and
  | or
  | not

namespace BuilderCall

/-- The column a call's leaf reads. -/
def column? : BuilderCall → Option Nat
  | eq _ col _ => some col
  | ne _ col _ => some col
  | lt _ col _ => some col
  | gt _ col _ => some col
  | null col => some col
  | notNull col => some col
  | _ => none

def isLeaf : BuilderCall → Bool
  | and => false
  | or => false
  | not => false
  | _ => true

def apply (p : Predicate) : BuilderCall → Predicate
  | eq t col val => p.equal t col val
  | ne t col val => p.notEqual t col val
  | lt t col val => p.lessThan t col val
  | gt t col val => p.greaterThan t col val
  | null col => p.isNull col
  | notNull col => p.isNotNull col
  | and => p.and
  | or => p.or
  | not => p.not

end BuilderCall

/-- The predicate a sequence of builder calls builds. -/
def build (calls : List BuilderCall) : Predicate := calls.foldl BuilderCall.apply {}

/-! ### The interpreter -/

/-- What an evaluation keeps between instructions: the stack, top first, and the
connectives still waiting for their right operand. -/
structure EvalState where
  stack : List Int64Bits := []
  pendingAnd : Bool := false
  pendingOr : Bool := false
  deriving DecidableEq, Repr

/-- A C++ truth value as it is pushed. -/
def truth (b : Bool) : Int64Bits := if b then 1 else 0

namespace EvalState

def push (s : EvalState) (x : Int64Bits) : EvalState := {s with stack := x :: s.stack}

def pop (s : EvalState) : Outcome (Int64Bits × EvalState) :=
  match s.stack with
  | [] => .error .emptyStack
  | x :: rest => .ok (x, {s with stack := rest})

def unary (s : EvalState) (f : Int64Bits → Int64Bits) : Outcome EvalState := do
  let (a, s) ← s.pop
  return s.push (f a)

/-- The right operand is popped first. -/
def binary (s : EvalState) (f : Int64Bits → Int64Bits → Int64Bits) : Outcome EvalState := do
  let (b, s) ← s.pop
  let (a, s) ← s.pop
  return s.push (f a b)

end EvalState

def logicalAnd (a b : Int64Bits) : Int64Bits := truth (a != 0 && b != 0)
def logicalOr (a b : Int64Bits) : Int64Bits := truth (a != 0 || b != 0)
def logicalNot (a : Int64Bits) : Int64Bits := truth (a == 0)

def EvalState.foldAnd (s : EvalState) : Outcome EvalState :=
  if s.pendingAnd && 2 ≤ s.stack.length then
    EvalState.binary {s with pendingAnd := false} logicalAnd
  else .ok s

def EvalState.foldOr (s : EvalState) : Outcome EvalState :=
  if s.pendingOr && 2 ≤ s.stack.length then
    EvalState.binary {s with pendingOr := false} logicalOr
  else .ok s

/-- Fold the deferred connectives whose two operands are on the stack. -/
def EvalState.foldPending (s : EvalState) : Outcome EvalState := do
  let s ← s.foldAnd
  s.foldOr

/-- The memory `EvaluateRow` reads: for every column its array of widened values. -/
abbrev Columns := List (List Int64Bits)

/-- The column can be read on the row and holds its value there. -/
def Shows (columns : Columns) (row : Nat) (vals : Nat → Int64Bits) (column : Nat) : Prop :=
  ∃ data, columns[column]? = some data ∧ data[row]? = some (vals column)

/-- `columns[columnIndices[operand]][row]`. -/
def loadCell (p : BytecodeProgram) (columns : Columns) (row operand : Nat) : Outcome Int64Bits := do
  let col ← orFault .outOfBounds p.columnIndices[operand]?
  let data ← orFault .outOfBounds columns[col]?
  orFault .outOfBounds data[row]?

/-- One instruction other than `Return`. -/
def step (p : BytecodeProgram) (columns : Columns) (row : Nat) (s : EvalState) (i : Instruction) :
    Outcome EvalState :=
  match i.op with
  | .loadColumn | .loadMask => do
    let x ← loadCell p columns row i.operandA
    return s.push x
  | .loadConst => do
    let x ← orFault .outOfBounds p.constants[i.operandA]?
    return s.push x
  | .compareEq => do (← s.binary fun a b => truth (a == b)).foldPending
  | .compareNe => do (← s.binary fun a b => truth (a != b)).foldPending
  | .compareLt => do (← s.binary fun a b => truth (a.slt b)).foldPending
  | .compareLe => do (← s.binary fun a b => truth (a.sle b)).foldPending
  | .compareGt => do (← s.binary fun a b => truth (b.slt a)).foldPending
  | .compareGe => do (← s.binary fun a b => truth (b.sle a)).foldPending
  | .isNull => s.unary fun a => truth (a == 0)
  | .isNotNull => s.unary fun a => truth (a != 0)
  | .and => if 2 ≤ s.stack.length then s.binary logicalAnd else .ok {s with pendingAnd := true}
  | .or => if 2 ≤ s.stack.length then s.binary logicalOr else .ok {s with pendingOr := true}
  | .not => s.unary logicalNot
  | .andMask => s.binary fun a b => a &&& b
  | .orMask => s.binary fun a b => a ||| b
  | .branchIfFalse => do
    let (_, s) ← s.pop
    return s
  | _ => .ok s

/-- The instructions in order, to a `Return` or to the end. -/
def execute (p : BytecodeProgram) (columns : Columns) (row : Nat) :
    List Instruction → EvalState → Outcome (Bool × EvalState)
  | [], s => .ok (s.stack.head?.any (· != 0), s)
  | i :: rest, s =>
    if i.op = .return then do
      let (result, s) ← s.pop
      return (result != 0, s)
    else do
      let s ← step p columns row s i
      execute p columns row rest s

/-- `EvaluateRow` on an interpreter left in `prior` by earlier evaluations: its stack
and flags are cleared first. -/
def evaluateRow (p : BytecodeProgram) (prior : EvalState) (columns : Columns) (row : Nat) :
    Outcome (Bool × EvalState) :=
  execute p columns row p.instructions
    {prior with stack := [], pendingAnd := false, pendingOr := false}

/-! ### Comparison opcodes -/

inductive CompareOp where
  | eq | ne | lt | le | gt | ge
  deriving DecidableEq, Repr

namespace CompareOp

def holds : CompareOp → Int → Int → Bool
  | eq, a, b => a = b
  | ne, a, b => a ≠ b
  | lt, a, b => a < b
  | le, a, b => a ≤ b
  | gt, a, b => b < a
  | ge, a, b => b ≤ a

def opCode : CompareOp → OpCode
  | eq => .compareEq
  | ne => .compareNe
  | lt => .compareLt
  | le => .compareLe
  | gt => .compareGt
  | ge => .compareGe

end CompareOp

section Step
variable (p : BytecodeProgram) (columns : Columns) (row : Nat) (s : EvalState)

/-- A comparison opcode replaces its two operands by their comparison as numbers,
then folds what was deferred. -/
theorem step_compare (op : CompareOp) (a b : Int64Bits) :
    step p columns row {s with stack := b :: a :: s.stack} ⟨op.opCode, 0⟩ =
      (s.push (truth (op.holds a.toInt b.toInt))).foldPending := by
  cases op with
  | eq =>
    have h : (a == b) = decide (a.toInt = b.toInt) := by
      rw [Bool.eq_iff_iff]
      simp [BitVec.toInt_inj]
    simp only [step, CompareOp.opCode, CompareOp.holds, ← h]
    rfl
  | ne =>
    have h : (a != b) = decide (a.toInt ≠ b.toInt) := by
      rw [Bool.eq_iff_iff]
      simp [BitVec.toInt_inj]
    simp only [step, CompareOp.opCode, CompareOp.holds, ← h]
    rfl
  | lt | gt =>
    simp only [step, CompareOp.opCode, CompareOp.holds, ← BitVec.slt_eq_decide]
    rfl
  | le | ge =>
    simp only [step, CompareOp.opCode, CompareOp.holds, ← BitVec.sle_eq_decide]
    rfl

/-- `IsNull` asks whether the value on top is zero, and folds nothing. -/
theorem step_isNull (a : Int64Bits) :
    step p columns row {s with stack := a :: s.stack} ⟨.isNull, 0⟩ =
      .ok (s.push (truth (decide (a.toInt = 0)))) := by
  have h : (a == 0) = decide (a.toInt = 0) := by
    rw [Bool.eq_iff_iff]
    simp [← BitVec.toInt_inj]
  simp only [← h]
  rfl

theorem step_isNotNull (a : Int64Bits) :
    step p columns row {s with stack := a :: s.stack} ⟨.isNotNull, 0⟩ =
      .ok (s.push (truth (decide (a.toInt ≠ 0)))) := by
  have h : (a != 0) = decide (a.toInt ≠ 0) := by
    rw [Bool.eq_iff_iff]
    simp [← BitVec.toInt_inj]
  simp only [← h]
  rfl

end Step

/-- The instructions before the first `Return` are run one after the other. -/
theorem execute_append {q : BytecodeProgram} {columns : Columns} {row : Nat} {a b : List Instruction}
    (h : ∀ i ∈ a, i.op ≠ .return) (s : EvalState) :
    execute q columns row (a ++ b) s =
      (a.foldlM (step q columns row) s >>= fun s => execute q columns row b s) := by
  induction a generalizing s with
  | nil => rfl
  | cons i rest ih =>
    rw [List.cons_append, execute, if_neg (h i (by simp)), List.foldlM_cons, bind_assoc]
    congr 1
    funext s
    exact ih (fun j hj => h j (List.mem_cons_of_mem _ hj)) s

/-! ### The faults of the interpreter -/

section Interpreter
variable {e : Fault} (he : e ≠ .emptyStack ∧ e ≠ .outOfBounds)
include he

theorem pop_avoids (s : EvalState) : Avoids e s.pop := by
  rw [EvalState.pop]
  split
  · exact avoids_error he.1.symm
  · exact avoids_ok e _

theorem unary_avoids (s : EvalState) (f : Int64Bits → Int64Bits) : Avoids e (s.unary f) :=
  (pop_avoids he s).bind fun _ _ => avoids_ok e _

theorem binary_avoids (s : EvalState) (f : Int64Bits → Int64Bits → Int64Bits) : Avoids e (s.binary f) :=
  (pop_avoids he s).bind fun x _ => (pop_avoids he x.2).bind fun _ _ => avoids_ok e _

theorem foldPending_avoids (s : EvalState) : Avoids e s.foldPending := by
  have hand : Avoids e s.foldAnd := by
    rw [EvalState.foldAnd]
    split
    · exact binary_avoids he _ _
    · exact avoids_ok e _
  refine hand.bind fun s' _ => ?_
  rw [EvalState.foldOr]
  split
  · exact binary_avoids he _ _
  · exact avoids_ok e _

/-- The interpreter pops too often or reads past its tables; it has no other faults. -/
theorem step_avoids (p : BytecodeProgram) (columns : Columns) (row : Nat) (s : EvalState) (i : Instruction) :
    Avoids e (step p columns row s i) := by
  have hcompare : ∀ f, Avoids e (do (← s.binary f).foldPending) :=
    fun f => (binary_avoids he s f).bind fun s' _ => foldPending_avoids he s'
  have hcell : Avoids e (loadCell p columns row i.operandA) :=
    (avoids_orFault he.2.symm _).bind fun col _ =>
      (avoids_orFault he.2.symm _).bind fun data _ => avoids_orFault he.2.symm _
  obtain ⟨op, operandA⟩ := i
  cases op with
  | loadColumn | loadMask => exact hcell.bind fun _ _ => avoids_ok e _
  | loadConst => exact (avoids_orFault he.2.symm _).bind fun _ _ => avoids_ok e _
  | compareEq | compareNe | compareLt | compareLe | compareGt | compareGe => exact hcompare _
  | isNull => exact unary_avoids he s fun a => truth (a == 0)
  | isNotNull => exact unary_avoids he s fun a => truth (a != 0)
  | not => exact unary_avoids he s _
  | and | or =>
    show Avoids e (if _ then _ else _)
    split
    · exact binary_avoids he s _
    · exact avoids_ok e _
  | andMask | orMask => exact binary_avoids he s _
  | branchIfFalse => exact (pop_avoids he s).bind fun _ _ => avoids_ok e _
  | _ => exact avoids_ok e _

theorem execute_avoids (p : BytecodeProgram) (columns : Columns) (row : Nat) (is : List Instruction) (s : EvalState) :
    Avoids e (execute p columns row is s) := by
  induction is generalizing s with
  | nil => exact avoids_ok e _
  | cons i rest ih =>
    rw [execute]
    split
    · exact (pop_avoids he s).bind fun _ _ => avoids_ok e _
    · exact (step_avoids he p columns row s i).bind fun s' _ => ih s'

end Interpreter

end ColumnarStore.Predicates
