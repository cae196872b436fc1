import ColumnarStore.Predicate.StackHeight

/-! What a program decides before it meets a row.

Values never decide what the interpreter does next: there are no jumps, a connective is deferred by
the height of the stack, and a load faults by its operand and the number of columns. So one run
over heights and flags (`Shape.run`) ends as the run on every row of every table with that many
columns does (`evaluateRow_shape`), and a built program whose leaves have operands of their own
passes it exactly when no `Not` precedes the first leaf and every leaf's column is there
(`verify_build`). -/
namespace ColumnarStore.Predicates
open Foundation

/-- The interpreter's state without the values. -/
structure Shape where
  height : Nat := 0
  pendingAnd : Bool := false
  pendingOr : Bool := false
  deriving DecidableEq, Repr

def EvalState.shape (s : EvalState) : Shape := ⟨s.stack.length, s.pendingAnd, s.pendingOr⟩

namespace Shape

def push (a : Shape) : Shape := {a with height := a.height + 1}

def pop (a : Shape) : Outcome Shape :=
  match a.height with
  | 0 => .error .emptyStack
  | n + 1 => .ok {a with height := n}

def unary (a : Shape) : Outcome Shape := do
  let a ← a.pop
  return a.push

def binary (a : Shape) : Outcome Shape := do
  let a ← a.pop
  let a ← a.pop
  return a.push

def foldAnd (a : Shape) : Outcome Shape :=
  if a.pendingAnd && 2 ≤ a.height then binary {a with pendingAnd := false} else .ok a

def foldOr (a : Shape) : Outcome Shape :=
  if a.pendingOr && 2 ≤ a.height then binary {a with pendingOr := false} else .ok a

def foldPending (a : Shape) : Outcome Shape := do
  let a ← a.foldAnd
  a.foldOr

/-- One instruction other than `Return`, on a table of `n` columns. -/
def step (p : BytecodeProgram) (n : Nat) (a : Shape) (i : Instruction) : Outcome Shape :=
  match i.op with
  | .loadColumn | .loadMask => if p.columnIndices[i.operandA]?.any (· < n) then .ok a.push else .error .outOfBounds
  | .loadConst => if i.operandA < p.constants.length then .ok a.push else .error .outOfBounds
  | .compareEq | .compareNe | .compareLt | .compareLe | .compareGt | .compareGe => do (← a.binary).foldPending
  | .isNull | .isNotNull | .not => a.unary
  | .and => if 2 ≤ a.height then a.binary else .ok {a with pendingAnd := true}
  | .or => if 2 ≤ a.height then a.binary else .ok {a with pendingOr := true}
  | .andMask | .orMask => a.binary
  | .branchIfFalse => a.pop
  | _ => .ok a

def run (p : BytecodeProgram) (n : Nat) : List Instruction → Shape → Outcome Shape
  | [], a => .ok a
  | i :: rest, a =>
    if i.op = .return then a.pop
    else do
      let a ← step p n a i
      run p n rest a

end Shape

/-- The run over shapes from the interpreter's first state. -/
def BytecodeProgram.verify (p : BytecodeProgram) (n : Nat) : Outcome Shape := Shape.run p n p.instructions {}

/-! ### The interpreter seen through shapes -/

namespace EvalState
variable (s : EvalState)

theorem shape_pop : (fun r => r.2.shape) <$> s.pop = s.shape.pop := by
  obtain ⟨stack, pendingAnd, pendingOr⟩ := s
  cases stack <;> rfl

theorem shape_unary (f : Int64Bits → Int64Bits) : shape <$> s.unary f = s.shape.unary :=
  map_bind_eq s.shape_pop fun _ => rfl

theorem shape_binary (f : Int64Bits → Int64Bits → Int64Bits) : shape <$> s.binary f = s.shape.binary :=
  map_bind_eq s.shape_pop fun x => map_bind_eq x.2.shape_pop fun _ => rfl

theorem shape_foldPending : shape <$> s.foldPending = s.shape.foldPending := by
  have hand : shape <$> s.foldAnd = s.shape.foldAnd := by
    unfold foldAnd Shape.foldAnd
    show _ = if s.pendingAnd && 2 ≤ s.stack.length then _ else _
    split
    · exact shape_binary _ _
    · rfl
  refine map_bind_eq hand fun s' => ?_
  unfold foldOr Shape.foldOr
  show _ = if s'.pendingOr && 2 ≤ s'.stack.length then _ else _
  split
  · exact shape_binary _ _
  · rfl

end EvalState

section Simulation
variable {p : BytecodeProgram} {columns : Columns} {row : Nat} (hrow : ∀ data ∈ columns, row < data.length)
include hrow

/-- On a row all columns have, a load faults by its operand alone. -/
theorem loadCell_shape (operand : Nat) : (fun _ => ()) <$> loadCell p columns row operand =
    if p.columnIndices[operand]?.any (· < columns.length) then .ok () else .error .outOfBounds := by
  unfold loadCell
  cases hcol : p.columnIndices[operand]? with
  | none => rfl
  | some col =>
    rw [orFault_some, bind_ok, Option.any_some]
    by_cases hlt : col < columns.length
    · have hcell := hrow _ (List.getElem_mem hlt)
      rw [List.getElem?_eq_getElem hlt, orFault_some, bind_ok, List.getElem?_eq_getElem hcell, decide_eq_true hlt]
      rfl
    · rw [List.getElem?_eq_none (Nat.le_of_not_lt hlt), decide_eq_false hlt]
      rfl

theorem step_shape (s : EvalState) (i : Instruction) :
    EvalState.shape <$> step p columns row s i = Shape.step p columns.length s.shape i := by
  have hload : EvalState.shape <$> (do return s.push (← loadCell p columns row i.operandA) : Outcome EvalState) =
      if p.columnIndices[i.operandA]?.any (· < columns.length) then .ok s.shape.push else .error .outOfBounds := by
    show EvalState.shape <$> (loadCell p columns row i.operandA >>= fun x => .ok (s.push x)) = _
    rw [map_bind_eq (g := fun _ => .ok s.shape.push) (loadCell_shape (p := p) hrow i.operandA) fun _ => rfl]
    split <;> rfl
  have hcompare : ∀ f, EvalState.shape <$> (do (← s.binary f).foldPending : Outcome EvalState) =
      (do (← s.shape.binary).foldPending : Outcome Shape) :=
    fun f => map_bind_eq (s.shape_binary f) EvalState.shape_foldPending
  obtain ⟨op, operand⟩ := i
  cases op with
  | loadColumn | loadMask => exact hload
  | loadConst =>
    show EvalState.shape <$> (orFault Fault.outOfBounds p.constants[operand]? >>= fun x => .ok (s.push x)) =
      if operand < p.constants.length then _ else _
    split
    · next hlt =>
      rw [List.getElem?_eq_getElem hlt]
      rfl
    · next hle =>
      rw [List.getElem?_eq_none (Nat.le_of_not_lt hle)]
      rfl
  | compareEq | compareNe | compareLt | compareLe | compareGt | compareGe => exact hcompare _
  | isNull => exact s.shape_unary fun a => truth (a == 0)
  | isNotNull => exact s.shape_unary fun a => truth (a != 0)
  | not => exact s.shape_unary _
  | and | or =>
    show EvalState.shape <$> (if 2 ≤ s.stack.length then _ else _) = if 2 ≤ s.stack.length then _ else _
    split
    · exact s.shape_binary _
    · rfl
  | andMask | orMask => exact s.shape_binary _
  | branchIfFalse =>
    show EvalState.shape <$> (s.pop >>= fun x => .ok x.2) = s.shape.pop
    rw [← s.shape_pop]
    cases s.pop <;> rfl
  | _ => rfl

theorem execute_shape (is : List Instruction) (s : EvalState) :
    (fun r => r.2.shape) <$> execute p columns row is s = Shape.run p columns.length is s.shape := by
  induction is generalizing s with
  | nil => rfl
  | cons i rest ih =>
    unfold execute Shape.run
    split
    · rw [← s.shape_pop]
      cases s.pop <;> rfl
    · exact map_bind_eq (step_shape hrow s i) ih

/-- **How an evaluation ends is decided by the program and the number of columns.** -/
theorem evaluateRow_shape (prior : EvalState) :
    (fun r => r.2.shape) <$> evaluateRow p prior columns row = p.verify columns.length :=
  execute_shape hrow p.instructions _

end Simulation

/-! ### Programs the builder makes -/

/-- What the call's leaf reads is among `n` columns. -/
def BuilderCall.Within (n : Nat) (call : BuilderCall) : Prop := ∀ col ∈ call.column?, col < n

instance (n : Nat) (call : BuilderCall) : Decidable (call.Within n) :=
  inferInstanceAs (Decidable (∀ col ∈ call.column?, col < n))

namespace Shape

theorem run_append {q : BytecodeProgram} {n : Nat} {first others : List Instruction}
    (h : ∀ i ∈ first, i.op ≠ .return) (a : Shape) :
    run q n (first ++ others) a = first.foldlM (step q n) a >>= run q n others := by
  induction first generalizing a with
  | nil => rfl
  | cons i rest ih =>
    rw [List.cons_append, run, if_neg (h i List.mem_cons_self), List.foldlM_cons, bind_assoc]
    congr 1
    funext a'
    exact ih (fun j hj => h j (List.mem_cons_of_mem i hj)) a'

/-- With a value on the stack nothing but a load can fault, and a value stays. -/
theorem exists_unary {a : Shape} (ha : 1 ≤ a.height) : ∃ a', a.unary = .ok a' ∧ 1 ≤ a'.height := by
  obtain ⟨height, pendingAnd, pendingOr⟩ := a
  match height, ha with
  | n + 1, _ => exact ⟨_, rfl, Nat.le_add_left 1 n⟩

theorem exists_binary {a : Shape} (ha : 2 ≤ a.height) : ∃ a', a.binary = .ok a' ∧ 1 ≤ a'.height := by
  obtain ⟨height, pendingAnd, pendingOr⟩ := a
  match height, ha with
  | n + 2, _ => exact ⟨_, rfl, Nat.le_add_left 1 n⟩

theorem exists_foldPending {a : Shape} (ha : 1 ≤ a.height) : ∃ a', a.foldPending = .ok a' ∧ 1 ≤ a'.height := by
  have hif : ∀ (flag : Bool) (a b : Shape), 1 ≤ a.height → b.height = a.height →
      ∃ a', (if flag && 2 ≤ a.height then b.binary else .ok a) = .ok a' ∧ 1 ≤ a'.height := by
    intro flag a b ha hb
    split
    · next h => exact exists_binary (hb ▸ of_decide_eq_true (Bool.and_eq_true_iff.mp h).2)
    · exact ⟨a, rfl, ha⟩
  obtain ⟨a₁, hand, h₁⟩ := hif a.pendingAnd a {a with pendingAnd := false} ha rfl
  obtain ⟨a₂, hor, h₂⟩ := hif a₁.pendingOr a₁ {a₁ with pendingOr := false} h₁ rfl
  exact ⟨a₂, by rw [foldPending, foldAnd, hand]; exact hor, h₂⟩

end Shape

section Built
variable {q : BytecodeProgram} {n : Nat}

/-- The code goes through from `a` on and leaves a value on the stack, or it reads what is not there. -/
def Loads (q : BytecodeProgram) (n : Nat) (within : Prop) (a : Shape) (code : List Instruction) : Prop :=
  (within → ∃ a', code.foldlM (Shape.step q n) a = .ok a' ∧ 1 ≤ a'.height) ∧
    (¬within → code.foldlM (Shape.step q n) a = .error .outOfBounds)

theorem loads_leaf {operand column : Nat} (hcol : q.columnIndices[operand]? = some column)
    {rest : List Instruction}
    (hrest : ∀ a : Shape, 1 ≤ a.height → ∃ a', rest.foldlM (Shape.step q n) a = .ok a' ∧ 1 ≤ a'.height)
    (a : Shape) :
    Loads q n (column < n) a (⟨.loadColumn, operand⟩ :: rest) := by
  have hload : ∀ a : Shape, Shape.step q n a ⟨.loadColumn, operand⟩ =
      if column < n then .ok a.push else .error .outOfBounds := by
    intro a
    show (if q.columnIndices[operand]?.any (· < n) then _ else _) = _
    rw [hcol, Option.any_some]
    by_cases hlt : column < n
    · rw [decide_eq_true hlt, if_pos rfl, if_pos hlt]
    · rw [decide_eq_false hlt, if_neg Bool.false_ne_true, if_neg hlt]
  unfold Loads
  rw [List.foldlM_cons, hload]
  constructor
  · intro hlt
    rw [if_pos hlt]
    exact hrest a.push (Nat.le_add_left 1 a.height)
  · intro hnot
    rw [if_neg hnot]
    rfl

section Leaves
variable (hnumbered : q.Numbered)
include hnumbered

theorem loads_comparison {p : Predicate} {pred : PredicateType} {column : Nat} {value : Int64Bits} (op : Comparison)
    (hq : Extends (p.comparison pred op.opCode column value).program q) (a : Shape) :
    Loads q n (column < n) a [⟨.loadColumn, p.program.columnIndices.length % 2 ^ 32⟩,
      ⟨.loadConst, p.program.constants.length % 2 ^ 32⟩, ⟨op.opCode, 0⟩] := by
  have hcolumn : p.program.columnIndices ++ [column] <+: q.columnIndices := hq.columnIndices
  have hconstant : p.program.constants ++ [value] <+: q.constants := hq.constants
  rw [operand_eq hcolumn hnumbered.columnIndices, operand_eq hconstant hnumbered.constants]
  refine loads_leaf (getElem?_of_concat hcolumn) (fun a ha => ?_) a
  obtain ⟨a₁, hbinary, h₁⟩ := Shape.exists_binary (a := a.push) (Nat.succ_le_succ ha)
  obtain ⟨a₂, hfold, h₂⟩ := Shape.exists_foldPending h₁
  have hconst : p.program.constants.length < q.constants.length :=
    (List.getElem?_eq_some_iff.mp (getElem?_of_concat hconstant)).1
  have hload : Shape.step q n a ⟨.loadConst, p.program.constants.length⟩ = .ok a.push := if_pos hconst
  have hcompare : Shape.step q n a.push ⟨op.opCode, 0⟩ = .ok a₂ := by
    have hstep : Shape.step q n a.push ⟨op.opCode, 0⟩ = (a.push.binary >>= Shape.foldPending) := by cases op <;> rfl
    rw [hstep, hbinary]
    exact hfold
  refine ⟨a₂, ?_, h₂⟩
  rw [List.foldlM_cons, hload, bind_ok, List.foldlM_cons, hcompare]
  rfl

theorem loads_nullTest {p : Predicate} {pred : PredicateType} {op : OpCode} {column : Nat}
    (hop : ∀ a, Shape.step q n a ⟨op, 0⟩ = a.unary) (hq : Extends (p.nullTest pred op column).program q) (a : Shape) :
    Loads q n (column < n) a [⟨.loadColumn, p.program.columnIndices.length % 2 ^ 32⟩, ⟨op, 0⟩] := by
  have hcolumn : p.program.columnIndices ++ [column] <+: q.columnIndices := hq.columnIndices
  rw [operand_eq hcolumn hnumbered.columnIndices]
  refine loads_leaf (getElem?_of_concat hcolumn) (fun a ha => ?_) a
  obtain ⟨a₁, hunary, h₁⟩ := Shape.exists_unary ha
  refine ⟨a₁, ?_, h₁⟩
  rw [List.foldlM_cons, hop, hunary]
  rfl

end Leaves

/-- An operator finds a value on the stack and leaves one. -/
theorem exists_operator (op : Operator) {a : Shape} (ha : 1 ≤ a.height) :
    ∃ a', Shape.step q n a op.instruction = .ok a' ∧ 1 ≤ a'.height := by
  have hconnective : ∀ deferred : Shape, 1 ≤ deferred.height →
      ∃ a', (if 2 ≤ a.height then a.binary else .ok deferred) = .ok a' ∧ 1 ≤ a'.height := by
    intro deferred hdeferred
    split
    · next h => exact Shape.exists_binary h
    · exact ⟨deferred, rfl, hdeferred⟩
  cases op with
  | and => exact hconnective _ ha
  | or => exact hconnective _ ha
  | not => exact Shape.exists_unary ha

/-- An operator reads no column. -/
theorem Operator.within (op : Operator) (n : Nat) : op.call.Within n := by
  intro col hcol
  cases op <;> cases hcol

/-- What a call appends, by whether the column its leaf reads is there. -/
theorem exists_loads (hnumbered : q.Numbered) (p : Predicate) (call : BuilderCall)
    (hq : Extends (call.apply p).program q) :
    ∃ code, (call.apply p).program.instructions = p.program.instructions ++ code ∧ (∀ i ∈ code, i.op ≠ .return) ∧
      ∀ a : Shape, call.isLeaf = true ∨ 1 ≤ a.height → Loads q n (call.Within n) a code := by
  have hwithin : ∀ {col : Nat} {a : Shape} {code : List Instruction}, call.column? = some col →
      Loads q n (col < n) a code → Loads q n (call.Within n) a code := by
    intro col a code hcol h
    unfold BuilderCall.Within
    simpa [hcol] using h
  have hcompared : ∀ leaf : Leaf, call = leaf.call → ∃ code,
      (call.apply p).program.instructions = p.program.instructions ++ code ∧ (∀ i ∈ code, i.op ≠ .return) ∧
        ∀ a : Shape, call.isLeaf = true ∨ 1 ≤ a.height → Loads q n (call.Within n) a code := by
    intro leaf hcall
    rw [hcall, leaf.apply_call] at hq
    have hcol : call.column? = some leaf.column := by
      rw [hcall]
      obtain ⟨op, t, col, val⟩ := leaf
      cases op <;> rfl
    refine ⟨_, by rw [hcall, leaf.apply_call]; exact comparison_instructions .., ?_, fun a _ => ?_⟩
    · cases leaf.op <;> simp [Comparison.opCode]
    · exact hwithin hcol (loads_comparison hnumbered leaf.op hq a)
  have htested : ∀ pred op col, call.column? = some col → (∀ a, Shape.step q n a ⟨op, 0⟩ = a.unary) → op ≠ .return →
      call.apply p = p.nullTest pred op col → ∃ code,
        (call.apply p).program.instructions = p.program.instructions ++ code ∧ (∀ i ∈ code, i.op ≠ .return) ∧
          ∀ a : Shape, call.isLeaf = true ∨ 1 ≤ a.height → Loads q n (call.Within n) a code := by
    intro pred op col hcol hop hreturn happly
    rw [happly] at hq ⊢
    refine ⟨_, nullTest_instructions .., ?_, fun a _ => ?_⟩
    · simp [hreturn]
    · exact hwithin hcol (loads_nullTest hnumbered hop hq a)
  have hoperated : ∀ op : Operator, call = op.call → ∃ code,
      (call.apply p).program.instructions = p.program.instructions ++ code ∧ (∀ i ∈ code, i.op ≠ .return) ∧
        ∀ a : Shape, call.isLeaf = true ∨ 1 ≤ a.height → Loads q n (call.Within n) a code := by
    rintro op rfl
    have happly := congrArg (fun p => p.program.instructions) (Operator.foldl_apply [op] p)
    refine ⟨[op].map Operator.instruction, happly, Operator.no_return [op], fun a ha => ⟨fun _ => ?_, fun hnot => ?_⟩⟩
    · obtain ⟨a', hstep, ha'⟩ :=
        exists_operator (q := q) (n := n) op (ha.resolve_left (by cases op <;> exact Bool.false_ne_true))
      exact ⟨a', by rw [List.map_singleton, List.foldlM_cons, hstep]; rfl, ha'⟩
    · exact absurd (op.within n) hnot
  cases call with
  | eq t col val => exact hcompared ⟨.eq, t, col, val⟩ rfl
  | ne t col val => exact hcompared ⟨.ne, t, col, val⟩ rfl
  | lt t col val => exact hcompared ⟨.lt, t, col, val⟩ rfl
  | gt t col val => exact hcompared ⟨.gt, t, col, val⟩ rfl
  | null col => exact htested .isNull .isNull col rfl (fun _ => rfl) (by decide) rfl
  | notNull col => exact htested .isNotNull .isNotNull col rfl (fun _ => rfl) (by decide) rfl
  | and => exact hoperated .and rfl
  | or => exact hoperated .or rfl
  | not => exact hoperated .not rfl

/-- The calls from a leaf on, or from any point with a value on the stack. -/
theorem exists_loads_calls (hnumbered : q.Numbered) (p : Predicate) (calls : List BuilderCall)
    (hq : Extends (calls.foldl BuilderCall.apply p).program q) :
    ∃ code, (calls.foldl BuilderCall.apply p).program.instructions = p.program.instructions ++ code ∧
      (∀ i ∈ code, i.op ≠ .return) ∧
      ∀ a : Shape, (∀ call ∈ calls.head?, call.isLeaf = true) ∨ 1 ≤ a.height →
        ((∀ call ∈ calls, call.Within n) → ∃ a', code.foldlM (Shape.step q n) a = .ok a') ∧
          ((¬∀ call ∈ calls, call.Within n) → code.foldlM (Shape.step q n) a = .error .outOfBounds) := by
  induction calls generalizing p with
  | nil => exact ⟨[], (List.append_nil _).symm, nofun, fun a _ => ⟨fun _ => ⟨a, rfl⟩, fun h => absurd nofun h⟩⟩
  | cons call rest ih =>
    obtain ⟨first, hfirst, hfirstReturn, hloads⟩ :=
      exists_loads (n := n) hnumbered p call ((extends_calls rest (call.apply p)).trans hq)
    obtain ⟨others, hothers, hothersReturn, hrest⟩ := ih (call.apply p) hq
    refine ⟨first ++ others, ?_, ?_, fun a ha => ?_⟩
    · rw [List.foldl_cons, hothers, hfirst, List.append_assoc]
    · intro i hi
      exact (List.mem_append.mp hi).elim (hfirstReturn i) (hothersReturn i)
    · rw [List.foldlM_append, List.forall_mem_cons]
      obtain ⟨hgoes, hfaults⟩ := hloads a (ha.imp_left fun h => h call rfl)
      by_cases hcall : call.Within n
      · obtain ⟨a₁, hrun, h₁⟩ := hgoes hcall
        rw [hrun, bind_ok, and_iff_right hcall]
        exact hrest a₁ (.inr h₁)
      · rw [hfaults hcall]
        exact ⟨fun h => absurd h.1 hcall, fun _ => rfl⟩

end Built

namespace Operator
variable {q : BytecodeProgram} {n : Nat}

/-- On an empty stack connectives are deferred, and a `Not` has nothing to negate. -/
theorem shape_empty (ops : List Operator) {a : Shape} (ha : a.height = 0) :
    (.not ∉ ops → ∃ a', (ops.map instruction).foldlM (Shape.step q n) a = .ok a' ∧ a'.height = 0) ∧
      (.not ∈ ops → (ops.map instruction).foldlM (Shape.step q n) a = .error .emptyStack) := by
  induction ops generalizing a with
  | nil => exact ⟨fun _ => ⟨a, rfl, ha⟩, fun h => absurd h List.not_mem_nil⟩
  | cons op rest ih =>
    obtain ⟨height, pendingAnd, pendingOr⟩ := a
    subst ha
    cases op with
    | and =>
      rw [List.mem_cons, or_iff_right (by decide)]
      exact ih (a := ⟨0, true, pendingOr⟩) rfl
    | or =>
      rw [List.mem_cons, or_iff_right (by decide)]
      exact ih (a := ⟨0, pendingAnd, true⟩) rfl
    | not => exact ⟨fun h => absurd List.mem_cons_self h, fun _ => rfl⟩

end Operator

/-- Each leaf has an entry in the table of columns, and in the table of constants at most one. -/
theorem numbered_calls (calls : List BuilderCall) (p : Predicate) :
    (calls.foldl BuilderCall.apply p).program.columnIndices.length =
        p.program.columnIndices.length + calls.countP BuilderCall.isLeaf ∧
      (calls.foldl BuilderCall.apply p).program.constants.length ≤
        p.program.constants.length + calls.countP BuilderCall.isLeaf := by
  induction calls generalizing p with
  | nil => exact ⟨rfl, le_rfl⟩
  | cons call rest ih =>
    obtain ⟨hcolumns, hconstants⟩ := ih (call.apply p)
    have hcall : (call.apply p).program.columnIndices.length =
          p.program.columnIndices.length + (if call.isLeaf then 1 else 0) ∧
        (call.apply p).program.constants.length ≤
          p.program.constants.length + (if call.isLeaf then 1 else 0) := by
      cases call with
      | eq | ne | lt | gt => exact ⟨List.length_append, List.length_append.le⟩
      | null | notNull => exact ⟨List.length_append, Nat.le_succ _⟩
      | and | or | not => exact ⟨rfl, le_rfl⟩
    rw [List.foldl_cons, List.countP_cons]
    omega

theorem numbered_build {calls : List BuilderCall} (h : calls.countP BuilderCall.isLeaf ≤ 2 ^ 32) :
    (build calls).program.Numbered := by
  obtain ⟨hcolumns, hconstants⟩ := numbered_calls calls {}
  exact ⟨hconstants.trans ((Nat.zero_add _).trans_le h), hcolumns.trans_le ((Nat.zero_add _).trans_le h)⟩

/-- **What the run over shapes finds in a built program: a `Not` before the first leaf, or else a leaf's column
that is not there, or else nothing.** -/
theorem verify_build (calls : List BuilderCall) (hleaves : calls.countP BuilderCall.isLeaf ≤ 2 ^ 32) (n : Nat) :
    ((build calls).program.verify n = .error .emptyStack ↔ .not ∈ leading calls) ∧
      ((build calls).program.verify n = .error .outOfBounds ↔ .not ∉ leading calls ∧ ¬∀ call ∈ calls, call.Within n) ∧
      ((∃ a, (build calls).program.verify n = .ok a) ↔ .not ∉ leading calls ∧ ∀ call ∈ calls, call.Within n) := by
  have hnumbered := numbered_build hleaves
  obtain ⟨ops, rest, rfl, hiff, hleaf⟩ := exists_leading calls
  generalize hq : (build (ops.map Operator.call ++ rest)).program = q at hnumbered
  obtain ⟨code, hcode, hreturn, hrest⟩ := exists_loads_calls (q := q) (n := n) hnumbered
    ((ops.map Operator.call).foldl BuilderCall.apply {}) rest
    (by rw [← hq, build, List.foldl_append]; exact .refl _)
  have hinstructions : q.instructions = ops.map Operator.instruction ++ code := by
    rw [← hq, build, List.foldl_append, hcode, Operator.foldl_apply]
    rfl
  have hwithin : (∀ call ∈ ops.map Operator.call ++ rest, call.Within n) ↔ ∀ call ∈ rest, call.Within n := by
    rw [List.forall_mem_append, and_iff_right]
    intro call hcall
    obtain ⟨op, -, rfl⟩ := List.mem_map.mp hcall
    exact op.within n
  rw [hiff, hwithin, BytecodeProgram.verify, hinstructions, Shape.run_append (Operator.no_return ops)]
  obtain ⟨hdeferred, hnegated⟩ := Operator.shape_empty (q := q) (n := n) ops (a := {}) rfl
  have hne : (Except.error .emptyStack : Outcome Shape) ≠ .error .outOfBounds :=
    fun h => absurd (Except.error.inj h) (by decide)
  by_cases hnot : .not ∈ ops
  · rw [hnegated hnot, bind_error]
    exact ⟨iff_of_true rfl hnot, iff_of_false hne fun h => h.1 hnot,
      iff_of_false (not_exists_ok _) fun h => h.1 hnot⟩
  obtain ⟨a, hrun, -⟩ := hdeferred hnot
  rw [hrun, bind_ok, ← List.append_nil code, Shape.run_append hreturn]
  obtain ⟨hgoes, hfaults⟩ := hrest a (.inl hleaf)
  by_cases hall : ∀ call ∈ rest, call.Within n
  · obtain ⟨a', ha'⟩ := hgoes hall
    rw [ha', bind_ok]
    exact ⟨iff_of_false (ok_ne_error _ _) hnot, iff_of_false (ok_ne_error _ _) fun h => h.2 hall,
      iff_of_true ⟨a', rfl⟩ ⟨hnot, hall⟩⟩
  · rw [hfaults hall, bind_error]
    exact ⟨iff_of_false hne.symm hnot, iff_of_true rfl ⟨hnot, hall⟩,
      iff_of_false (not_exists_ok _) fun h => hall h.2⟩

end ColumnarStore.Predicates
