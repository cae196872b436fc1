import ColumnarStore.Predicate.Program

/-! Builder chains and what the interpreter makes of them.

A chain is the way `PredicateBuilder` is called in practice: a leaf, any number of
`Not`s, then a connective, the next leaf and its `Not`s, and so on. Its meaning is
the strict left-to-right fold (`Chain.eval`). `evaluateRow_chain`: on the program a
comparison chain builds, the interpreter returns that fold, faults nowhere, and
ends with one value on its stack and nothing deferred. An instruction has 32 bits for the
index of its leaf, so a chain has at most 2^32 leaves. -/
namespace ColumnarStore.Predicates
open Foundation

/-! ### Chains -/

inductive Comparison where
  | eq | ne | lt | gt
  deriving DecidableEq, Repr

namespace Comparison

def holds : Comparison → Int → Int → Bool
  | eq, a, b => a = b
  | ne, a, b => a ≠ b
  | lt, a, b => a < b
  | gt, a, b => b < a

def opCode : Comparison → OpCode
  | eq => .compareEq
  | ne => .compareNe
  | lt => .compareLt
  | gt => .compareGt

def predicateType : Comparison → PredicateType
  | eq => .equal
  | ne => .notEqual
  | lt => .lessThan
  | gt => .greaterThan

end Comparison

/-- A column compared with a constant. -/
structure Leaf where
  op : Comparison
  type : DataType
  column : Nat
  value : Native type

namespace Leaf

def call (leaf : Leaf) : BuilderCall :=
  match leaf.op with
  | .eq => .eq leaf.type leaf.column leaf.value
  | .ne => .ne leaf.type leaf.column leaf.value
  | .lt => .lt leaf.type leaf.column leaf.value
  | .gt => .gt leaf.type leaf.column leaf.value

def constant (leaf : Leaf) : Int64Bits := leaf.value.toInt64 leaf.type

/-- The leaf on a row, given as the number each column holds there. -/
def holds (leaf : Leaf) (row : Nat → Int) : Bool := leaf.op.holds (row leaf.column) leaf.constant.toInt

theorem apply_call (leaf : Leaf) (p : Predicate) : leaf.call.apply p =
    p.comparison leaf.op.predicateType leaf.op.opCode leaf.column leaf.constant := by
  obtain ⟨op, type, column, value⟩ := leaf
  cases op <;> rfl

end Leaf

inductive Connective where
  | and | or
  deriving DecidableEq, Repr

namespace Connective

def apply : Connective → Bool → Bool → Bool
  | and, a, b => a && b
  | or, a, b => a || b

def call : Connective → BuilderCall
  | and => .and
  | or => .or

end Connective

/-- A leaf with its `Not`s, and the links that follow it, as many as there are operands. -/
structure Chain where
  head : Leaf
  headNots : Nat := 0
  tail : List (Connective × Leaf × Nat) := []
  numbered : tail.length < 2 ^ 32 := by simp

namespace Chain

def leaves (c : Chain) : List Leaf := c.head :: c.tail.map fun link => link.2.1

/-- What one link does to the value so far. -/
def link (row : Nat → Int) (acc : Bool) (l : Connective × Leaf × Nat) : Bool :=
  not^[l.2.2] (l.1.apply acc (l.2.1.holds row))

/-- The strict left-to-right fold. -/
def eval (c : Chain) (row : Nat → Int) : Bool :=
  c.tail.foldl (link row) (not^[c.headNots] (c.head.holds row))

def linkCalls (l : Connective × Leaf × Nat) : List BuilderCall :=
  l.1.call :: l.2.1.call :: List.replicate l.2.2 .not

def calls (c : Chain) : List BuilderCall :=
  c.head.call :: List.replicate c.headNots .not ++ c.tail.flatMap linkCalls

def predicate (c : Chain) : Predicate := build c.calls

end Chain

/-! ### What a call appends -/

theorem comparison_instructions (p : Predicate) (pred : PredicateType) (op : OpCode) (column : Nat)
    (value : Int64Bits) :
    (p.comparison pred op column value).program.instructions = p.program.instructions ++
      [⟨.loadColumn, p.program.columnIndices.length % 2 ^ 32⟩,
        ⟨.loadConst, p.program.constants.length % 2 ^ 32⟩, ⟨op, 0⟩] := by
  simp [Predicate.comparison, BytecodeProgram.emit, BytecodeProgram.addConstant,
    BytecodeProgram.addColumn]

theorem nullTest_instructions (p : Predicate) (pred : PredicateType) (op : OpCode) (column : Nat) :
    (p.nullTest pred op column).program.instructions = p.program.instructions ++
      [⟨.loadColumn, p.program.columnIndices.length % 2 ^ 32⟩, ⟨op, 0⟩] := by
  simp [Predicate.nullTest, BytecodeProgram.emit, BytecodeProgram.addColumn]

/-- The tables of `q` begin with those of `p`. -/
structure Extends (p q : BytecodeProgram) : Prop where
  constants : p.constants <+: q.constants
  columnIndices : p.columnIndices <+: q.columnIndices

theorem Extends.refl (p : BytecodeProgram) : Extends p p := ⟨List.prefix_rfl, List.prefix_rfl⟩

theorem Extends.trans {p q r : BytecodeProgram} (h : Extends p q) (h' : Extends q r) : Extends p r :=
  ⟨h.constants.trans h'.constants, h.columnIndices.trans h'.columnIndices⟩

theorem extends_apply (p : Predicate) (call : BuilderCall) :
    Extends p.program (call.apply p).program := by
  cases call <;>
    constructor <;>
    simp [BuilderCall.apply, Predicate.equal, Predicate.notEqual, Predicate.lessThan,
      Predicate.greaterThan, Predicate.isNull, Predicate.isNotNull, Predicate.comparison,
      Predicate.nullTest, Predicate.and, Predicate.or, Predicate.not, BytecodeProgram.emit,
      BytecodeProgram.addConstant, BytecodeProgram.addColumn]

theorem extends_calls (calls : List BuilderCall) (p : Predicate) :
    Extends p.program (calls.foldl BuilderCall.apply p).program := by
  induction calls generalizing p with
  | nil => exact .refl _
  | cons call rest ih => exact (extends_apply p call).trans (ih _)

/-- What is last in a table is found at its index in every longer one. -/
theorem getElem?_of_concat {α : Type} {table table' : List α} {x : α} (h : table ++ [x] <+: table') :
    table'[table.length]? = some x := by
  obtain ⟨more, rfl⟩ := h
  simp

/-- An index of the tables is its own operand. -/
theorem operand_eq {α : Type} {table table' : List α} {x : α}
    (h : table ++ [x] <+: table') (hlength : table'.length ≤ 2 ^ 32) :
    table.length % 2 ^ 32 = table.length := by
  have hle := h.length_le
  rw [List.length_append, List.length_singleton] at hle
  exact Nat.mod_eq_of_lt (by omega)

/-- Cut or not, an operand is an index of the table. -/
theorem exists_operand {α : Type} {table table' : List α} {x : α} (h : table ++ [x] <+: table') :
    ∃ y ∈ table', table'[table.length % 2 ^ 32]? = some y := by
  have hle := h.length_le
  rw [List.length_append, List.length_singleton] at hle
  have hlt : table.length % 2 ^ 32 < table'.length := (Nat.mod_le _ _).trans_lt (by omega)
  exact ⟨_, List.getElem_mem hlt, List.getElem?_eq_getElem hlt⟩

/-! ### The tables of a chain -/

/-- The predicate has an entry, a column and a constant for each of the leaves, in order. -/
structure Tables (p : Predicate) (leaves : List Leaf) : Prop where
  columnPredicates : p.columnPredicates = leaves.map fun leaf => leaf.op.predicateType
  columnIndices : p.program.columnIndices = leaves.map Leaf.column
  constants : p.program.constants = leaves.map Leaf.constant

theorem Tables.leaf {p : Predicate} {leaves : List Leaf} (h : Tables p leaves) (leaf : Leaf) :
    Tables (leaf.call.apply p) (leaves ++ [leaf]) := by
  rw [leaf.apply_call]
  constructor
  · simp [Predicate.comparison, h.columnPredicates]
  · simp [Predicate.comparison, BytecodeProgram.emit, BytecodeProgram.addConstant,
      BytecodeProgram.addColumn, h.columnIndices]
  · simp [Predicate.comparison, BytecodeProgram.emit, BytecodeProgram.addConstant,
      BytecodeProgram.addColumn, h.constants]

theorem Tables.nots {p : Predicate} {leaves : List Leaf} (h : Tables p leaves) (n : Nat) :
    Tables ((List.replicate n BuilderCall.not).foldl BuilderCall.apply p) leaves := by
  induction n generalizing p with
  | zero => exact h
  | succ n ih => exact ih (p := BuilderCall.not.apply p) ⟨h.columnPredicates, h.columnIndices, h.constants⟩

theorem Tables.links {p : Predicate} {leaves : List Leaf} (h : Tables p leaves)
    (tail : List (Connective × Leaf × Nat)) :
    Tables ((tail.flatMap Chain.linkCalls).foldl BuilderCall.apply p)
      (leaves ++ tail.map fun link => link.2.1) := by
  induction tail generalizing p leaves with
  | nil => simpa using h
  | cons l rest ih =>
    have hconnective : Tables (l.1.call.apply p) leaves := by
      cases l.1 <;> exact ⟨h.columnPredicates, h.columnIndices, h.constants⟩
    have hlink := (hconnective.leaf l.2.1).nots l.2.2
    rw [List.flatMap_cons, List.foldl_append, List.map_cons, List.append_cons]
    exact ih hlink

theorem tables_chain (c : Chain) : Tables c.predicate c.leaves := by
  have hempty : Tables {} [] := ⟨rfl, rfl, rfl⟩
  have hlinks := ((hempty.leaf c.head).nots c.headNots).links c.tail
  rw [Chain.predicate, build, Chain.calls, List.foldl_append, List.foldl_cons]
  exact hlinks

theorem Chain.numbered_program (c : Chain) : c.predicate.program.Numbered := by
  have htables := tables_chain c
  have hlength : c.leaves.length ≤ 2 ^ 32 := by
    simpa [Chain.leaves] using c.numbered
  constructor
  · rwa [htables.constants, List.length_map]
  · rwa [htables.columnIndices, List.length_map]

/-! ### Straight-line execution -/

section Execution
variable (q : BytecodeProgram) (columns : Columns) (row : Nat)

/-- The instructions of `p`, run against the tables of `q`, lead to `s`. -/
def Reaches (p : BytecodeProgram) (s : EvalState) : Prop :=
  p.instructions.foldlM (step q columns row) {} = .ok s ∧ ∀ i ∈ p.instructions, i.op ≠ .return

variable {q columns row}

/-- Reaching a state with a program's own tables is evaluating it. -/
theorem Reaches.evaluateRow {s : EvalState} (h : Reaches q columns row q s) (prior : EvalState) :
    evaluateRow q prior columns row = .ok (s.stack.head?.any (· != 0), s) := by
  have hrun : execute q columns row (q.instructions ++ []) {} =
      (q.instructions.foldlM (step q columns row) {} >>= fun s => execute q columns row [] s) :=
    execute_append h.2 {}
  rw [List.append_nil, h.1] at hrun
  exact hrun

theorem reaches_nil : Reaches q columns row {} {} := ⟨rfl, fun _ hi => by cases hi⟩

theorem Reaches.append {p p' : BytecodeProgram} {is : List Instruction} {s s' : EvalState}
    (h : Reaches q columns row p s) (hp : p'.instructions = p.instructions ++ is)
    (hreturn : ∀ i ∈ is, i.op ≠ .return) (hs : is.foldlM (step q columns row) s = .ok s') :
    Reaches q columns row p' s' := by
  refine ⟨?_, ?_⟩
  · rw [hp, List.foldlM_append, h.1]
    exact hs
  · intro i hi
    rw [hp] at hi
    exact (List.mem_append.mp hi).elim (h.2 i) (hreturn i)

theorem step_comparison (op : Comparison) (s : EvalState) (a b : Int64Bits) :
    step q columns row {s with stack := b :: a :: s.stack} ⟨op.opCode, 0⟩ =
      (s.push (truth (op.holds a.toInt b.toInt))).foldPending := by
  cases op with
  | eq => exact step_compare _ _ _ _ .eq a b
  | ne => exact step_compare _ _ _ _ .ne a b
  | lt => exact step_compare _ _ _ _ .lt a b
  | gt => exact step_compare _ _ _ _ .gt a b

theorem loadCell_eq {operand column : Nat} {vals : Nat → Int64Bits}
    (hcol : q.columnIndices[operand]? = some column) (hcell : Shows columns row vals column) :
    loadCell q columns row operand = .ok (vals column) := by
  obtain ⟨data, hdata, hrow⟩ := hcell
  simp [loadCell, hcol, hdata, hrow]

/-- A leaf compares the two values its operands lead to, then folds what was deferred. -/
theorem Reaches.compare {p : Predicate} {s s' : EvalState} (h : Reaches q columns row p.program s)
    (leaf : Leaf) {a b : Int64Bits}
    (hcell : loadCell q columns row (p.program.columnIndices.length % 2 ^ 32) = .ok a)
    (hconst : q.constants[p.program.constants.length % 2 ^ 32]? = some b)
    (hs : (s.push (truth (leaf.op.holds a.toInt b.toInt))).foldPending = .ok s') :
    Reaches q columns row (leaf.call.apply p).program s' := by
  rw [leaf.apply_call]
  refine h.append (comparison_instructions ..) ?_ ?_
  · cases leaf.op <;> simp [Comparison.opCode]
  · have hload : step q columns row s ⟨.loadColumn, p.program.columnIndices.length % 2 ^ 32⟩ =
        .ok (s.push a) := by
      show loadCell q columns row _ >>= _ = _
      rw [hcell]
      rfl
    have hloadConst : step q columns row (s.push a) ⟨.loadConst, p.program.constants.length % 2 ^ 32⟩ =
        .ok {s with stack := b :: a :: s.stack} := by
      show orFault _ _ >>= _ = _
      rw [hconst]
      rfl
    rw [List.foldlM_cons, hload, bind_ok, List.foldlM_cons, hloadConst, bind_ok, List.foldlM_cons,
      step_comparison]
    exact (congrArg (· >>= _) hs).trans rfl

/-- With a table that is nowhere cut, a leaf pushes its own truth value. -/
theorem Reaches.leaf {p : Predicate} {s s' : EvalState} (h : Reaches q columns row p.program s)
    (leaf : Leaf) (hq : Extends (leaf.call.apply p).program q) (hnumbered : q.Numbered)
    {vals : Nat → Int64Bits} (hcell : Shows columns row vals leaf.column)
    (hs : (s.push (truth (leaf.holds fun c => (vals c).toInt))).foldPending = .ok s') :
    Reaches q columns row (leaf.call.apply p).program s' := by
  rw [leaf.apply_call] at hq
  have hcol : p.program.columnIndices ++ [leaf.column] <+: q.columnIndices := hq.columnIndices
  have hconst : p.program.constants ++ [leaf.constant] <+: q.constants := hq.constants
  refine h.compare leaf (a := vals leaf.column) (b := leaf.constant) ?_ ?_ hs
  · rw [operand_eq hcol hnumbered.columnIndices]
    exact loadCell_eq (getElem?_of_concat hcol) hcell
  · rw [operand_eq hconst hnumbered.constants]
    exact getElem?_of_concat hconst

/-- One value on the stack and nothing deferred. -/
def holding (b : Bool) : EvalState := {stack := [truth b]}

/-- Ending with a value on the stack is returning it. -/
theorem Reaches.returns {b : Bool} (h : Reaches q columns row q (holding b)) (prior : EvalState) :
    Predicates.evaluateRow q prior columns row = .ok (b, holding b) := by
  rw [h.evaluateRow prior]
  cases b <;> rfl

/-- A connective waiting for its right operand. -/
def awaiting (op : Connective) (b : Bool) : EvalState :=
  {stack := [truth b], pendingAnd := op = .and, pendingOr := op = .or}

theorem Reaches.connective {p : Predicate} {b : Bool} (h : Reaches q columns row p.program (holding b))
    (op : Connective) : Reaches q columns row (op.call.apply p).program (awaiting op b) := by
  cases op <;> exact h.append rfl (by simp) rfl

theorem Reaches.nots {p : Predicate} {b : Bool} (h : Reaches q columns row p.program (holding b))
    (n : Nat) :
    Reaches q columns row ((List.replicate n BuilderCall.not).foldl BuilderCall.apply p).program
      (holding (not^[n] b)) := by
  induction n generalizing p b with
  | zero => exact h
  | succ n ih =>
    have hnot : Reaches q columns row (BuilderCall.not.apply p).program (holding !b) :=
      h.append rfl (by simp) (by cases b <;> rfl)
    exact ih hnot

/-- The value of a leaf that follows a deferred connective is folded into it. -/
theorem fold_awaiting (op : Connective) (acc b : Bool) :
    ((awaiting op acc).push (truth b)).foldPending = .ok (holding (op.apply acc b)) := by
  cases op <;> cases acc <;> cases b <;> rfl

theorem fold_empty (b : Bool) : (EvalState.push {} (truth b)).foldPending = .ok (holding b) := by
  cases b <;> rfl

end Execution

/-! ### Chains -/

section Chains
variable {q : BytecodeProgram} {columns : Columns} {row : Nat} {vals : Nat → Int64Bits}

/-- Each leaf's column can be read on the row, and holds the given value there. -/
def Readable (columns : Columns) (row : Nat) (vals : Nat → Int64Bits) (leaves : List Leaf) : Prop :=
  ∀ leaf ∈ leaves, ∃ data, columns[leaf.column]? = some data ∧ data[row]? = some (vals leaf.column)

/-- One link: connective, leaf and `Not`s. -/
theorem Reaches.link {p : Predicate} {acc : Bool} (h : Reaches q columns row p.program (holding acc))
    (l : Connective × Leaf × Nat)
    (hq : Extends ((Chain.linkCalls l).foldl BuilderCall.apply p).program q) (hnumbered : q.Numbered)
    (hread : Readable columns row vals [l.2.1]) :
    Reaches q columns row ((Chain.linkCalls l).foldl BuilderCall.apply p).program
      (holding (Chain.link (fun c => (vals c).toInt) acc l)) := by
  have hleaf := (h.connective l.1).leaf l.2.1 ((extends_calls _ _).trans hq) hnumbered
    (hread l.2.1 (by simp)) (fold_awaiting ..)
  exact hleaf.nots l.2.2

theorem Reaches.links {p : Predicate} {acc : Bool} (h : Reaches q columns row p.program (holding acc))
    (tail : List (Connective × Leaf × Nat))
    (hq : Extends ((tail.flatMap Chain.linkCalls).foldl BuilderCall.apply p).program q)
    (hnumbered : q.Numbered) (hread : Readable columns row vals (tail.map fun l => l.2.1)) :
    Reaches q columns row ((tail.flatMap Chain.linkCalls).foldl BuilderCall.apply p).program
      (holding (tail.foldl (Chain.link fun c => (vals c).toInt) acc)) := by
  induction tail generalizing p acc with
  | nil => exact h
  | cons l rest ih =>
    rw [List.flatMap_cons, List.foldl_append] at hq ⊢
    have hlink := h.link l ((extends_calls _ _).trans hq) hnumbered fun leaf hleaf => hread leaf (by simp_all)
    exact ih hlink hq fun leaf hleaf => hread leaf (List.mem_cons_of_mem _ hleaf)

theorem reaches_chain (c : Chain) (hread : Readable columns row vals c.leaves) :
    Reaches c.predicate.program columns row c.predicate.program
      (holding (c.eval fun col => (vals col).toInt)) := by
  have hcalls : c.predicate = (c.tail.flatMap Chain.linkCalls).foldl BuilderCall.apply
      ((List.replicate c.headNots BuilderCall.not).foldl BuilderCall.apply (c.head.call.apply {})) := by
    simp [Chain.predicate, build, Chain.calls, List.foldl_append]
  have hhead : Reaches c.predicate.program columns row (c.head.call.apply {}).program
      (holding (c.head.holds fun col => (vals col).toInt)) := by
    refine reaches_nil.leaf (p := {}) c.head ?_ c.numbered_program (hread c.head (by simp [Chain.leaves]))
      (fold_empty _)
    rw [hcalls]
    exact (extends_calls _ _).trans (extends_calls _ _)
  have htail : Readable columns row vals (c.tail.map fun l => l.2.1) :=
    fun leaf hleaf => hread leaf (List.mem_cons_of_mem _ hleaf)
  have hlinks := (hhead.nots c.headNots).links c.tail (by rw [← hcalls]; exact .refl _)
    c.numbered_program htail
  rw [← hcalls] at hlinks
  exact hlinks

/-- **On the program of a comparison chain the interpreter returns the chain's
left-to-right value**, from whatever state it was left in. -/
theorem evaluateRow_chain (c : Chain) (hread : Readable columns row vals c.leaves)
    (prior : EvalState) :
    evaluateRow c.predicate.program prior columns row =
      .ok (c.eval fun col => (vals col).toInt, holding (c.eval fun col => (vals col).toInt)) :=
  (reaches_chain c hread).returns prior

/-- `0 < a`, negated twice, or `b = 7`, negated. -/
def twoColumns : Chain where
  head := ⟨.gt, .int64, 0, 0⟩
  headNots := 2
  tail := [(.or, ⟨.eq, .int32, 1, 7⟩, 1)]

theorem evaluateRow_twoColumns :
    evaluateRow twoColumns.predicate.program {pendingOr := true} [[5, -5], [8, 7]] 1 =
      .ok (false, holding false) :=
  @evaluateRow_chain [[5, -5], [8, 7]] 1 (fun c => if c = 0 then -5 else 7) twoColumns
    (by simp [Readable, Chain.leaves, twoColumns]) {pendingOr := true}

end Chains

end ColumnarStore.Predicates
