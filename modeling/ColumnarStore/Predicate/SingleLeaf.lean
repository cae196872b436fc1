import ColumnarStore.Predicate.Postfix

/-! Programs with a single leaf.

A scan counts a predicate's leaves, columns and constants, and when it finds one of each it
takes the leaf's comparison for the whole program (`Predicate.IsFast`). Such a program is
one comparison with connectives and `Not`s before and behind it
(`exists_singleLeaf`). A connective with one value or none on the stack is deferred and
never folded, a `Not` behind the leaf negates, and a `Not` before it finds the stack
empty. -/
namespace ColumnarStore.Predicates
open Foundation

/-- One leaf, and its tables: what a scan takes for a single comparison. -/
structure Predicate.IsFast (p : Predicate) (pred : PredicateType) (column : Nat) (constant : Int64Bits) :
    Prop where
  columnPredicates : p.columnPredicates = [pred]
  columnIndices : p.program.columnIndices = [column]
  constants : p.program.constants = [constant]

/-! ### Calls that are no leaf -/

inductive Operator where
  | and | or | not
  deriving DecidableEq, Repr

namespace Operator

def call : Operator → BuilderCall
  | and => .and
  | or => .or
  | not => .not

def opCode : Operator → OpCode
  | and => .and
  | or => .or
  | not => .not

def instruction (op : Operator) : Instruction := ⟨op.opCode, 0⟩

theorem no_return (ops : List Operator) : ∀ i ∈ ops.map instruction, i.op ≠ .return := by
  intro i hi
  obtain ⟨op, -, rfl⟩ := List.mem_map.mp hi
  cases op <;> decide

/-- Operators append their instructions and leave the tables alone. -/
theorem foldl_apply (ops : List Operator) (p : Predicate) :
    (ops.map call).foldl BuilderCall.apply p =
      {p with program := {p.program with instructions := p.program.instructions ++ ops.map instruction}} := by
  induction ops generalizing p with
  | nil => simp
  | cons op rest ih =>
    rw [List.map_cons, List.foldl_cons, ih]
    cases op <;>
      simp [call, opCode, instruction, BuilderCall.apply, Predicate.and, Predicate.or, Predicate.not,
        BytecodeProgram.emit]

section Execution
variable {q : BytecodeProgram} {columns : Columns} {row : Nat}

/-- On an empty stack connectives are deferred. -/
theorem foldlM_empty {ops : List Operator} (hnot : .not ∉ ops) {s : EvalState} (hs : s.stack = []) :
    ∃ s', (ops.map instruction).foldlM (step q columns row) s = .ok s' ∧ s'.stack = [] := by
  induction ops generalizing s with
  | nil => exact ⟨s, rfl, hs⟩
  | cons op rest ih =>
    obtain ⟨stack, pendingAnd, pendingOr⟩ := s
    subst hs
    have hrest : .not ∉ rest := fun h => hnot (List.mem_cons_of_mem _ h)
    cases op with
    | and => exact ih hrest (s := ⟨[], true, pendingOr⟩) rfl
    | or => exact ih hrest (s := ⟨[], pendingAnd, true⟩) rfl
    | not => exact absurd List.mem_cons_self hnot

/-- On an empty stack a `Not` has nothing to negate. -/
theorem foldlM_not {ops : List Operator} (hnot : .not ∈ ops) {s : EvalState} (hs : s.stack = []) :
    (ops.map instruction).foldlM (step q columns row) s = .error .emptyStack := by
  induction ops generalizing s with
  | nil => exact absurd hnot List.not_mem_nil
  | cons op rest ih =>
    obtain ⟨stack, pendingAnd, pendingOr⟩ := s
    subst hs
    cases op with
    | and => exact ih (by simpa using hnot) (s := ⟨[], true, pendingOr⟩) rfl
    | or => exact ih (by simpa using hnot) (s := ⟨[], pendingAnd, true⟩) rfl
    | not => rfl

/-- Behind a value connectives are deferred, and each `Not` negates the value. -/
theorem foldlM_value (ops : List Operator) {s : EvalState} {b : Bool} (hs : s.stack = [truth b]) :
    ∃ s', (ops.map instruction).foldlM (step q columns row) s = .ok s' ∧
      s'.stack = [truth (Bool.not^[ops.count .not] b)] := by
  induction ops generalizing s b with
  | nil => exact ⟨s, rfl, hs⟩
  | cons op rest ih =>
    obtain ⟨stack, pendingAnd, pendingOr⟩ := s
    subst hs
    cases op with
    | and =>
      rw [List.count_cons_of_ne (by decide)]
      exact ih (s := ⟨[truth b], true, pendingOr⟩) rfl
    | or =>
      rw [List.count_cons_of_ne (by decide)]
      exact ih (s := ⟨[truth b], pendingAnd, true⟩) rfl
    | not =>
      rw [List.count_cons_self, Function.iterate_succ_apply]
      have hnot : step q columns row ⟨[truth b], pendingAnd, pendingOr⟩ (instruction .not) =
          .ok ⟨[truth !b], pendingAnd, pendingOr⟩ := by
        cases b <;> rfl
      obtain ⟨s', hrun, hs'⟩ := ih (s := ⟨[truth !b], pendingAnd, pendingOr⟩) rfl
      refine ⟨s', ?_, hs'⟩
      rw [List.map_cons, List.foldlM_cons, hnot]
      exact hrun

end Execution

end Operator

/-! ### The calls of a fast predicate -/

/-- A comparison, and the operators before and behind it. -/
structure SingleLeaf where
  before : List Operator := []
  leaf : Leaf
  after : List Operator := []

namespace SingleLeaf

def calls (f : SingleLeaf) : List BuilderCall :=
  f.before.map Operator.call ++ f.leaf.call :: f.after.map Operator.call

def predicate (f : SingleLeaf) : Predicate := build f.calls

theorem predicate_eq (f : SingleLeaf) :
    f.predicate.columnPredicates = [f.leaf.op.predicateType] ∧
    f.predicate.program.columnIndices = [f.leaf.column] ∧
    f.predicate.program.constants = [f.leaf.constant] ∧
    f.predicate.program.instructions = f.before.map Operator.instruction ++
      ([⟨.loadColumn, 0⟩, ⟨.loadConst, 0⟩, ⟨f.leaf.op.opCode, 0⟩] ++ f.after.map Operator.instruction) := by
  rw [predicate, build, calls, List.foldl_append, List.foldl_cons, Operator.foldl_apply,
    Operator.foldl_apply, f.leaf.apply_call]
  refine ⟨?_, ?_, ?_, ?_⟩ <;>
    simp [Predicate.comparison, BytecodeProgram.emit, BytecodeProgram.addConstant, BytecodeProgram.addColumn]

end SingleLeaf

/-- A call is an operator, a comparison, or a null test. -/
theorem BuilderCall.cases_leaf (call : BuilderCall) :
    (∃ op : Operator, call = op.call) ∨ (∃ leaf : Leaf, call = leaf.call) ∨
      ∃ pred column, (∃ op, ∀ p : Predicate, call.apply p = p.nullTest pred op column) := by
  cases call with
  | eq t col val => exact .inr (.inl ⟨⟨.eq, t, col, val⟩, rfl⟩)
  | ne t col val => exact .inr (.inl ⟨⟨.ne, t, col, val⟩, rfl⟩)
  | lt t col val => exact .inr (.inl ⟨⟨.lt, t, col, val⟩, rfl⟩)
  | gt t col val => exact .inr (.inl ⟨⟨.gt, t, col, val⟩, rfl⟩)
  | null col => exact .inr (.inr ⟨.isNull, col, .isNull, fun _ => rfl⟩)
  | notNull col => exact .inr (.inr ⟨.isNotNull, col, .isNotNull, fun _ => rfl⟩)
  | and => exact .inl ⟨.and, rfl⟩
  | or => exact .inl ⟨.or, rfl⟩
  | not => exact .inl ⟨.not, rfl⟩

/-- Calls never take an entry away. -/
theorem length_columnPredicates_le (calls : List BuilderCall) (p : Predicate) :
    p.columnPredicates.length ≤ (calls.foldl BuilderCall.apply p).columnPredicates.length := by
  induction calls generalizing p with
  | nil => exact le_rfl
  | cons call rest ih =>
    refine le_trans ?_ (ih (call.apply p))
    obtain ⟨op, rfl⟩ | ⟨leaf, rfl⟩ | ⟨pred, column, op, happly⟩ := call.cases_leaf
    · cases op <;> exact le_rfl
    · simp [leaf.apply_call, Predicate.comparison]
    · simp [happly, Predicate.nullTest]

/-- Calls that add no entry are operators. -/
theorem exists_operators {calls : List BuilderCall} {p : Predicate}
    (h : (calls.foldl BuilderCall.apply p).columnPredicates.length = p.columnPredicates.length) :
    ∃ ops : List Operator, ops.map Operator.call = calls := by
  induction calls generalizing p with
  | nil => exact ⟨[], rfl⟩
  | cons call rest ih =>
    have hle := length_columnPredicates_le rest (call.apply p)
    rw [List.foldl_cons] at h
    obtain ⟨op, rfl⟩ | ⟨leaf, rfl⟩ | ⟨pred, column, op, happly⟩ := call.cases_leaf
    · obtain ⟨ops, rfl⟩ := ih (h.trans (by cases op <;> rfl))
      exact ⟨op :: ops, rfl⟩
    · rw [h, leaf.apply_call] at hle
      simp [Predicate.comparison] at hle
    · rw [h, happly] at hle
      simp [Predicate.nullTest] at hle

theorem exists_singleLeaf_of_length {calls : List BuilderCall} {p : Predicate}
    (hpreds : (calls.foldl BuilderCall.apply p).columnPredicates.length = p.columnPredicates.length + 1)
    (hconsts : (calls.foldl BuilderCall.apply p).program.constants.length =
      p.program.constants.length + 1) : ∃ f : SingleLeaf, f.calls = calls := by
  induction calls generalizing p with
  | nil => exact absurd hpreds (Nat.lt_succ_self _).ne
  | cons call rest ih =>
    rw [List.foldl_cons] at hpreds hconsts
    obtain ⟨op, rfl⟩ | ⟨leaf, rfl⟩ | ⟨pred, column, op, happly⟩ := call.cases_leaf
    · obtain ⟨f, rfl⟩ := ih (p := op.call.apply p) (hpreds.trans (by cases op <;> rfl))
        (hconsts.trans (by cases op <;> rfl))
      exact ⟨{f with before := op :: f.before}, rfl⟩
    · obtain ⟨ops, rfl⟩ := exists_operators (p := leaf.call.apply p)
        (hpreds.trans (by simp [leaf.apply_call, Predicate.comparison]))
      exact ⟨{leaf, after := ops}, rfl⟩
    · -- A null test takes the one entry and brings no constant.
      obtain ⟨ops, rfl⟩ := exists_operators (p := call.apply p)
        (hpreds.trans (by simp [happly, Predicate.nullTest]))
      rw [Operator.foldl_apply, happly] at hconsts
      simp [Predicate.nullTest, BytecodeProgram.emit, BytecodeProgram.addColumn] at hconsts

/-- A predicate that counts as a single comparison is one, among operators. -/
theorem exists_singleLeaf {calls : List BuilderCall} {pred : PredicateType} {column : Nat}
    {constant : Int64Bits} (h : (build calls).IsFast pred column constant) :
    ∃ f : SingleLeaf, f.calls = calls :=
  exists_singleLeaf_of_length (p := {}) (congrArg List.length h.columnPredicates)
    (congrArg List.length h.constants)

/-! ### Evaluation -/

namespace SingleLeaf
variable {columns : Columns} {row : Nat} {vals : Nat → Int64Bits}

/-- A `Not` before the leaf pops an empty stack. -/
theorem evaluateRow_not (f : SingleLeaf) (hnot : .not ∈ f.before) (prior : EvalState) :
    evaluateRow f.predicate.program prior columns row = .error .emptyStack := by
  obtain ⟨-, -, -, hinstructions⟩ := f.predicate_eq
  rw [evaluateRow, hinstructions]
  exact (execute_append (Operator.no_return _) {}).trans (by rw [Operator.foldlM_not hnot rfl]; rfl)

/-- Without one, the leaf's value comes out, negated by each `Not` behind it. -/
theorem evaluateRow_value (f : SingleLeaf) (hnot : .not ∉ f.before)
    (hcell : Shows columns row vals f.leaf.column) (prior : EvalState) :
    ∃ s, evaluateRow f.predicate.program prior columns row =
      .ok (not^[f.after.count .not] (f.leaf.holds fun c => (vals c).toInt), s) := by
  have hq : Extends (f.leaf.call.apply ((f.before.map Operator.call).foldl BuilderCall.apply {})).program
      f.predicate.program := by
    rw [predicate, build, calls, List.foldl_append, List.foldl_cons]
    exact extends_calls _ _
  obtain ⟨s₁, hbefore, hs₁⟩ : ∃ s₁, (f.before.map Operator.instruction).foldlM
      (step f.predicate.program columns row) {} = .ok s₁ ∧ s₁.stack = [] :=
    Operator.foldlM_empty hnot rfl
  have h₁ : Reaches f.predicate.program columns row
      ((f.before.map Operator.call).foldl BuilderCall.apply {}).program s₁ :=
    reaches_nil.append (by rw [Operator.foldl_apply]) (Operator.no_return _) hbefore
  -- One value is on the stack when the leaf folds, so it folds nothing.
  have hfold : ∀ x, (s₁.push x).foldPending = .ok (s₁.push x) := by
    intro x
    simp [EvalState.foldPending, EvalState.foldAnd, EvalState.foldOr, EvalState.push, hs₁]
  have hnumbered : f.predicate.program.Numbered := by
    obtain ⟨-, hcolumns, hconstants, -⟩ := f.predicate_eq
    constructor
    · simp [hconstants]
    · simp [hcolumns]
  have h₂ := h₁.leaf f.leaf hq hnumbered hcell (hfold _)
  generalize f.leaf.holds (fun c => (vals c).toInt) = b at h₂
  obtain ⟨s₃, hafter, hs₃⟩ : ∃ s₃, (f.after.map Operator.instruction).foldlM
      (step f.predicate.program columns row) (s₁.push (truth b)) = .ok s₃ ∧
      s₃.stack = [truth (not^[f.after.count .not] b)] :=
    Operator.foldlM_value f.after (congrArg (_ :: ·) hs₁)
  have h₃ : Reaches f.predicate.program columns row f.predicate.program s₃ := by
    refine h₂.append ?_ (Operator.no_return f.after) hafter
    rw [predicate, build, calls, List.foldl_append, List.foldl_cons, Operator.foldl_apply f.after]
  refine ⟨s₃, (h₃.evaluateRow prior).trans ?_⟩
  rw [hs₃]
  cases not^[f.after.count .not] b <;> rfl

end SingleLeaf

end ColumnarStore.Predicates
