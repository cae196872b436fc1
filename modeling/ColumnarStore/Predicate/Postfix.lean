import ColumnarStore.Predicate.Chain

/-! Postfix programs.

A program written by hand emits a connective behind both of its operands. There is
nothing to defer then: the code of an expression pushes the expression's truth value on
whatever stack it finds and leaves the flags down (`Postfix.pushes`), so the program
returns that value (`evaluateRow_expr`). -/
namespace ColumnarStore.Predicates
open Foundation

/-! ### Expressions -/

inductive Expr where
  | compare (op : CompareOp) (column : Nat) (value : Int64Bits)
  | isNull (column : Nat)
  | isNotNull (column : Nat)
  | and (a b : Expr)
  | or (a b : Expr)
  | not (a : Expr)
  deriving DecidableEq, Repr

namespace Expr

/-- The truth value on a row, given as the number each column holds there. A column is
null where it holds 0. -/
def holds (row : Nat → Int) : Expr → Bool
  | compare op column value => op.holds (row column) value.toInt
  | isNull column => row column = 0
  | isNotNull column => row column ≠ 0
  | and a b => a.holds row && b.holds row
  | or a b => a.holds row || b.holds row
  | not a => !a.holds row

def columns : Expr → List Nat
  | compare _ column _ => [column]
  | isNull column => [column]
  | isNotNull column => [column]
  | and a b => a.columns ++ b.columns
  | or a b => a.columns ++ b.columns
  | not a => a.columns

end Expr

/-! ### Programs -/

/-- The instructions are the expression in postfix order, their operands resolved by the
tables of `p`. Leaves may share an entry of a table. -/
inductive Postfix (p : BytecodeProgram) : Expr → List Instruction → Prop where
  | compare {op : CompareOp} {column : Nat} {value : Int64Bits} {colIdx constIdx : Nat}
      (hcol : p.columnIndices[colIdx]? = some column) (hconst : p.constants[constIdx]? = some value) :
      Postfix p (.compare op column value)
        [⟨.loadColumn, colIdx⟩, ⟨.loadConst, constIdx⟩, ⟨op.opCode, 0⟩]
  | isNull {column colIdx : Nat} (hcol : p.columnIndices[colIdx]? = some column) :
      Postfix p (.isNull column) [⟨.loadColumn, colIdx⟩, ⟨.isNull, 0⟩]
  | isNotNull {column colIdx : Nat} (hcol : p.columnIndices[colIdx]? = some column) :
      Postfix p (.isNotNull column) [⟨.loadColumn, colIdx⟩, ⟨.isNotNull, 0⟩]
  | and {a b : Expr} {codeA codeB : List Instruction} (ha : Postfix p a codeA) (hb : Postfix p b codeB) :
      Postfix p (.and a b) (codeA ++ codeB ++ [⟨.and, 0⟩])
  | or {a b : Expr} {codeA codeB : List Instruction} (ha : Postfix p a codeA) (hb : Postfix p b codeB) :
      Postfix p (.or a b) (codeA ++ codeB ++ [⟨.or, 0⟩])
  | not {a : Expr} {codeA : List Instruction} (ha : Postfix p a codeA) :
      Postfix p (.not a) (codeA ++ [⟨.not, 0⟩])

/-- A program that is an expression in postfix order, with or without a `Return` behind. -/
def IsPostfix (p : BytecodeProgram) (e : Expr) : Prop :=
  ∃ code, Postfix p e code ∧ (p.instructions = code ∨ p.instructions = code ++ [⟨.return, 0⟩])

namespace Expr

/-- Emit an expression behind a program, with an entry of its own for every operand. -/
def emit (p : BytecodeProgram) : Expr → BytecodeProgram
  | compare op column value =>
    let (p, colIdx) := p.addColumn column
    let (p, constIdx) := p.addConstant value
    ((p.emit .loadColumn colIdx).emit .loadConst constIdx).emit op.opCode
  | isNull column =>
    let (p, colIdx) := p.addColumn column
    (p.emit .loadColumn colIdx).emit .isNull
  | isNotNull column =>
    let (p, colIdx) := p.addColumn column
    (p.emit .loadColumn colIdx).emit .isNotNull
  | and a b => (b.emit (a.emit p)).emit .and
  | or a b => (b.emit (a.emit p)).emit .or
  | not a => (a.emit p).emit .not

end Expr

theorem extends_emitted (p : BytecodeProgram) (op : OpCode) : Extends p (p.emit op) :=
  ⟨List.prefix_rfl, List.prefix_rfl⟩

theorem extends_emit (e : Expr) (p : BytecodeProgram) : Extends p (e.emit p) := by
  induction e generalizing p with
  | compare op column value => exact ⟨List.prefix_append .., List.prefix_append ..⟩
  | isNull column => exact ⟨List.prefix_rfl, List.prefix_append ..⟩
  | isNotNull column => exact ⟨List.prefix_rfl, List.prefix_append ..⟩
  | and a b iha ihb => exact ((iha p).trans (ihb (a.emit p))).trans (extends_emitted _ _)
  | or a b iha ihb => exact ((iha p).trans (ihb (a.emit p))).trans (extends_emitted _ _)
  | not a iha => exact (iha p).trans (extends_emitted _ _)

theorem columnIndices_emit (e : Expr) (p : BytecodeProgram) :
    (e.emit p).columnIndices = p.columnIndices ++ e.columns := by
  induction e generalizing p with
  | compare op column value => rfl
  | isNull column => rfl
  | isNotNull column => rfl
  | and a b iha ihb =>
    show (b.emit (a.emit p)).columnIndices = _
    rw [ihb, iha, List.append_assoc]
    rfl
  | or a b iha ihb =>
    show (b.emit (a.emit p)).columnIndices = _
    rw [ihb, iha, List.append_assoc]
    rfl
  | not a iha => exact iha p

/-- A leaf brings a constant at most. -/
theorem length_constants_emit (e : Expr) (p : BytecodeProgram) :
    (e.emit p).constants.length ≤ p.constants.length + e.columns.length := by
  induction e generalizing p with
  | compare op column value => exact (List.length_append ..).le
  | isNull column => exact Nat.le_succ _
  | isNotNull column => exact Nat.le_succ _
  | and a b iha ihb | or a b iha ihb =>
    have ha := iha p
    have hb := ihb (a.emit p)
    show (b.emit (a.emit p)).constants.length ≤ _ + (a.columns ++ b.columns).length
    rw [List.length_append]
    omega
  | not a iha => exact iha p

/-- What is emitted behind a program is the expression in postfix order, also for a program
with longer tables. -/
theorem postfix_emit (e : Expr) (p q : BytecodeProgram) (hq : Extends (e.emit p) q) (hnumbered : q.Numbered) :
    ∃ code, (e.emit p).instructions = p.instructions ++ code ∧ Postfix q e code := by
  have hentry : ∀ (table : List Nat) (x : Nat), table ++ [x] <+: q.columnIndices →
      q.columnIndices[table.length % 2 ^ 32]? = some x := by
    intro table x h
    rw [operand_eq h hnumbered.columnIndices]
    exact getElem?_of_concat h
  induction e generalizing p with
  | compare op column value =>
    have hconstant : p.constants ++ [value] <+: q.constants := hq.constants
    have hconst : q.constants[p.constants.length % 2 ^ 32]? = some value := by
      rw [operand_eq hconstant hnumbered.constants]
      exact getElem?_of_concat hconstant
    exact ⟨_, by simp [Expr.emit, BytecodeProgram.emit, BytecodeProgram.addConstant, BytecodeProgram.addColumn],
      .compare (hentry _ _ hq.columnIndices) hconst⟩
  | isNull column =>
    exact ⟨_, by simp [Expr.emit, BytecodeProgram.emit, BytecodeProgram.addColumn],
      .isNull (hentry _ _ hq.columnIndices)⟩
  | isNotNull column =>
    exact ⟨_, by simp [Expr.emit, BytecodeProgram.emit, BytecodeProgram.addColumn],
      .isNotNull (hentry _ _ hq.columnIndices)⟩
  | and a b iha ihb =>
    have hq := (extends_emitted _ _).trans hq
    obtain ⟨codeA, hcodeA, ha⟩ := iha p ((extends_emit b _).trans hq)
    obtain ⟨codeB, hcodeB, hb⟩ := ihb (a.emit p) hq
    exact ⟨_, by simp [Expr.emit, BytecodeProgram.emit, hcodeA, hcodeB], .and ha hb⟩
  | or a b iha ihb =>
    have hq := (extends_emitted _ _).trans hq
    obtain ⟨codeA, hcodeA, ha⟩ := iha p ((extends_emit b _).trans hq)
    obtain ⟨codeB, hcodeB, hb⟩ := ihb (a.emit p) hq
    exact ⟨_, by simp [Expr.emit, BytecodeProgram.emit, hcodeA, hcodeB], .or ha hb⟩
  | not a iha =>
    obtain ⟨codeA, hcodeA, ha⟩ := iha p ((extends_emitted _ _).trans hq)
    exact ⟨_, by simp [Expr.emit, BytecodeProgram.emit, hcodeA], .not ha⟩

/-- Every expression whose leaves have operands of their own has a postfix program. -/
theorem isPostfix_emit (e : Expr) (he : e.columns.length ≤ 2 ^ 32) :
    IsPostfix (e.emit {}) e ∧ IsPostfix ((e.emit {}).emit .return) e := by
  have hnumbered : (e.emit {}).Numbered := by
    have hconstants := length_constants_emit e {}
    constructor
    · exact hconstants.trans ((Nat.zero_add _).trans_le he)
    · rwa [columnIndices_emit]
  obtain ⟨code, hcode, h⟩ := postfix_emit e {} (e.emit {}) (.refl _) hnumbered
  obtain ⟨code', hcode', h'⟩ := postfix_emit e {} ((e.emit {}).emit .return) (extends_emitted _ _)
    ⟨hnumbered.constants, hnumbered.columnIndices⟩
  refine ⟨⟨code, h, .inl (by simpa using hcode)⟩, ⟨code', h', .inr ?_⟩⟩
  simpa [BytecodeProgram.emit] using hcode'

/-! ### Execution -/

section Execution
variable {p : BytecodeProgram} {columns : Columns} {row : Nat} {vals : Nat → Int64Bits}

theorem step_loadColumn {column colIdx : Nat} (hcol : p.columnIndices[colIdx]? = some column)
    (hcell : Shows columns row vals column) (s : EvalState) :
    step p columns row s ⟨.loadColumn, colIdx⟩ = .ok (s.push (vals column)) := by
  show loadCell p columns row colIdx >>= _ = _
  rw [loadCell_eq hcol hcell]
  rfl

/-- Nothing waits for a right operand. -/
def EvalState.Idle (s : EvalState) : Prop := s.pendingAnd = false ∧ s.pendingOr = false

theorem EvalState.Idle.push {s : EvalState} (h : s.Idle) (x : Int64Bits) : (s.push x).Idle := h

theorem EvalState.Idle.foldPending {s : EvalState} (h : s.Idle) : s.foldPending = .ok s := by
  simp [EvalState.foldPending, EvalState.foldAnd, EvalState.foldOr, h.1, h.2]

/-- A connective behind its operands finds both and folds them. -/
theorem step_connective (op : Connective) (s : EvalState) (a b : Bool) :
    step p columns row ((s.push (truth a)).push (truth b)) ⟨match op with | .and => .and | .or => .or, 0⟩ =
      .ok (s.push (truth (op.apply a b))) := by
  cases op <;> cases a <;> cases b <;> rfl

theorem step_not (s : EvalState) (a : Bool) :
    step p columns row (s.push (truth a)) ⟨.not, 0⟩ = .ok (s.push (truth !a)) := by
  cases a <;> rfl

/-- The code of an expression pushes its truth value and defers nothing. -/
theorem Postfix.pushes {e : Expr} {code : List Instruction} (h : Postfix p e code)
    (hcells : ∀ c ∈ e.columns, Shows columns row vals c) {s : EvalState} (hs : s.Idle) :
    code.foldlM (step p columns row) s =
      .ok (s.push (truth (e.holds fun c => (vals c).toInt))) := by
  induction h generalizing s with
  | compare hcol hconst =>
    rename_i op column value colIdx constIdx
    have hload := step_loadColumn hcol (hcells column (by simp [Expr.columns])) s
    have hloadConst : step p columns row (s.push (vals column)) ⟨.loadConst, constIdx⟩ =
        .ok {s with stack := value :: vals column :: s.stack} := by
      simp [step, hconst, EvalState.push]
    rw [List.foldlM_cons, hload, bind_ok, List.foldlM_cons, hloadConst, bind_ok, List.foldlM_cons,
      step_compare, (hs.push _).foldPending]
    rfl
  | isNull hcol =>
    rename_i column colIdx
    have hload := step_loadColumn hcol (hcells column (by simp [Expr.columns])) s
    rw [List.foldlM_cons, hload, bind_ok, List.foldlM_cons]
    exact (congrArg (· >>= _) (step_isNull p columns row s (vals column))).trans rfl
  | isNotNull hcol =>
    rename_i column colIdx
    have hload := step_loadColumn hcol (hcells column (by simp [Expr.columns])) s
    rw [List.foldlM_cons, hload, bind_ok, List.foldlM_cons]
    exact (congrArg (· >>= _) (step_isNotNull p columns row s (vals column))).trans rfl
  | and _ _ iha ihb =>
    rw [List.foldlM_append, List.foldlM_append, iha (fun c hc => hcells c (List.mem_append_left _ hc)) hs,
      bind_ok, ihb (fun c hc => hcells c (List.mem_append_right _ hc)) (hs.push _), bind_ok]
    exact (congrArg (· >>= _) (step_connective .and s _ _)).trans rfl
  | or _ _ iha ihb =>
    rw [List.foldlM_append, List.foldlM_append, iha (fun c hc => hcells c (List.mem_append_left _ hc)) hs,
      bind_ok, ihb (fun c hc => hcells c (List.mem_append_right _ hc)) (hs.push _), bind_ok]
    exact (congrArg (· >>= _) (step_connective .or s _ _)).trans rfl
  | not _ iha =>
    rw [List.foldlM_append, iha hcells hs, bind_ok]
    exact (congrArg (· >>= _) (step_not s _)).trans rfl

theorem Postfix.no_return {e : Expr} {code : List Instruction} (h : Postfix p e code) :
    ∀ i ∈ code, i.op ≠ .return := by
  induction h with
  | compare =>
    rename_i op _ _ _ _ _ _
    cases op <;> simp [CompareOp.opCode]
  | isNull => simp
  | isNotNull => simp
  | and _ _ iha ihb =>
    simp only [List.mem_append, List.mem_singleton]
    intro i h
    rcases h with (hi | hi) | rfl
    · exact iha i hi
    · exact ihb i hi
    · decide
  | or _ _ iha ihb =>
    simp only [List.mem_append, List.mem_singleton]
    intro i h
    rcases h with (hi | hi) | rfl
    · exact iha i hi
    · exact ihb i hi
    · decide
  | not _ iha =>
    simp only [List.mem_append, List.mem_singleton]
    intro i h
    rcases h with hi | rfl
    · exact iha i hi
    · decide

/-- **A postfix program returns the truth value of its expression**, on every row and from
whatever state the interpreter was left in; no instruction finds the stack empty, and
nothing stays deferred. -/
theorem evaluateRow_expr (e : Expr) (hp : IsPostfix p e)
    (hcells : ∀ c ∈ e.columns, Shows columns row vals c) (prior : EvalState) :
    ∃ s, evaluateRow p prior columns row = .ok (e.holds (fun c => (vals c).toInt), s) ∧ s.Idle := by
  obtain ⟨code, hcode, hinstructions⟩ := hp
  have hidle : EvalState.Idle {} := ⟨rfl, rfl⟩
  have hrun := hcode.pushes hcells hidle
  generalize e.holds (fun c => (vals c).toInt) = value at hrun
  have heval : ∀ last, p.instructions = code ++ last →
      evaluateRow p prior columns row = execute p columns row last (EvalState.push {} (truth value)) := by
    intro last hlast
    rw [evaluateRow, hlast]
    exact (execute_append hcode.no_return {}).trans (by rw [hrun, bind_ok])
  rcases hinstructions with hplain | hreturn
  · refine ⟨EvalState.push {} (truth value), ?_, hidle⟩
    rw [heval [] (by rw [hplain, List.append_nil])]
    cases value <;> rfl
  · refine ⟨{}, ?_, hidle⟩
    rw [heval _ hreturn]
    cases value <;> rfl

/-- `not (a ≤ 5 and a is null)`, the leaves sharing the one entry for their column. -/
def sharedColumn : BytecodeProgram where
  instructions := [⟨.loadColumn, 0⟩, ⟨.loadConst, 0⟩, ⟨.compareLe, 0⟩, ⟨.loadColumn, 0⟩, ⟨.isNull, 0⟩,
    ⟨.and, 0⟩, ⟨.not, 0⟩, ⟨.return, 0⟩]
  constants := [5]
  columnIndices := [1]

theorem isPostfix_sharedColumn : IsPostfix sharedColumn (.not (.and (.compare .le 1 5) (.isNull 1))) :=
  have hcompare : Postfix sharedColumn (.compare .le 1 5) [⟨.loadColumn, 0⟩, ⟨.loadConst, 0⟩, ⟨.compareLe, 0⟩] :=
    .compare rfl rfl
  have hnull : Postfix sharedColumn (.isNull 1) [⟨.loadColumn, 0⟩, ⟨.isNull, 0⟩] := .isNull rfl
  ⟨_, .not (.and hcompare hnull), .inr rfl⟩

theorem evaluateRow_sharedColumn :
    ∃ s, evaluateRow sharedColumn {stack := [3], pendingAnd := true} [[1], [0]] 0 = .ok (false, s) ∧
      s.Idle :=
  @evaluateRow_expr sharedColumn [[1], [0]] 0 (fun _ => 0) _ isPostfix_sharedColumn
    (by simp [Shows, Expr.columns]) {stack := [3], pendingAnd := true}

end Execution

end ColumnarStore.Predicates
