import ColumnarStore.Predicate.SingleLeaf

/-! The height of the interpreter's stack.

A leaf pushes what its comparison or test pops. A connective looks at the height before it
pops, and of two values it leaves one. So from the first leaf on there is always a value on
the stack, and only a `Not` before it can find the stack empty (`pops_safely_iff`). -/
namespace ColumnarStore.Predicates
open Foundation

/-- The calls before the first leaf. -/
def leading (calls : List BuilderCall) : List BuilderCall := calls.takeWhile fun call => !call.isLeaf

/-! ### Heights -/

/-- The stack is not popped when it is empty, and has so many values or more afterwards. -/
def Heightens (n : Nat) (x : Outcome EvalState) : Prop :=
  Avoids .emptyStack x ∧ ∀ s, x = .ok s → n ≤ s.stack.length

theorem heightens_ok {n : Nat} {s : EvalState} (h : n ≤ s.stack.length) : Heightens n (.ok s) :=
  ⟨avoids_ok _ s, fun _ hs => Except.ok.inj hs ▸ h⟩

theorem Heightens.bind {n m : Nat} {x : Outcome EvalState} {f : EvalState → Outcome EvalState}
    (h : Heightens n x) (hf : ∀ s, n ≤ s.stack.length → Heightens m (f s)) : Heightens m (x >>= f) := by
  constructor
  · exact h.1.bind fun s hs => (hf s (h.2 s hs)).1
  · intro s' hs'
    obtain ⟨s, hs, hs'⟩ := bind_eq_ok.mp hs'
    exact (hf s (h.2 s hs)).2 s' hs'

theorem heightens_binary {s : EvalState} (hs : 2 ≤ s.stack.length) (f : Int64Bits → Int64Bits → Int64Bits) :
    Heightens 1 (s.binary f) := by
  obtain ⟨stack, pendingAnd, pendingOr⟩ := s
  match stack, hs with
  | b :: a :: rest, _ => exact heightens_ok (Nat.succ_le_succ (Nat.zero_le rest.length))

theorem heightens_unary {s : EvalState} (hs : 1 ≤ s.stack.length) (f : Int64Bits → Int64Bits) :
    Heightens 1 (s.unary f) := by
  obtain ⟨stack, pendingAnd, pendingOr⟩ := s
  match stack, hs with
  | a :: rest, _ => exact heightens_ok (Nat.succ_le_succ (Nat.zero_le rest.length))

/-- Folding looks at the height first. -/
theorem heightens_foldPending {s : EvalState} (hs : 1 ≤ s.stack.length) : Heightens 1 s.foldPending := by
  have hand : Heightens 1 s.foldAnd := by
    unfold EvalState.foldAnd
    split
    · next h =>
      exact heightens_binary (s := {s with pendingAnd := false}) (of_decide_eq_true (Bool.and_eq_true_iff.mp h).2) _
    · exact heightens_ok hs
  refine hand.bind fun s' hs' => ?_
  unfold EvalState.foldOr
  split
  · next h =>
    exact heightens_binary (s := {s' with pendingOr := false}) (of_decide_eq_true (Bool.and_eq_true_iff.mp h).2) _
  · exact heightens_ok hs'

/-! ### The code of a call -/

section Code
variable (q : BytecodeProgram) (columns : Columns) (row : Nat)

/-- Reading past a table or an array is another fault than popping the empty stack. -/
theorem avoids_read {α : Type} (x : Option α) : Avoids .emptyStack (orFault Fault.outOfBounds x) :=
  avoids_orFault (by decide) x

theorem heightens_loadColumn {n : Nat} {s : EvalState} (hs : n ≤ s.stack.length) (operand : Nat) :
    Heightens (n + 1) (step q columns row s ⟨.loadColumn, operand⟩) := by
  have hcell : Avoids .emptyStack (loadCell q columns row operand) :=
    (avoids_read _).bind fun _ _ => (avoids_read _).bind fun _ _ => avoids_read _
  constructor
  · exact hcell.bind fun x _ => avoids_ok _ (s.push x)
  · intro s' hs'
    obtain ⟨x, -, hpush⟩ := bind_eq_ok.mp hs'
    cases hpush
    exact Nat.succ_le_succ hs

theorem heightens_loadConst {n : Nat} {s : EvalState} (hs : n ≤ s.stack.length) (operand : Nat) :
    Heightens (n + 1) (step q columns row s ⟨.loadConst, operand⟩) := by
  constructor
  · exact (avoids_read q.constants[operand]?).bind fun x _ => avoids_ok _ (s.push x)
  · intro s' hs'
    obtain ⟨x, -, hpush⟩ := bind_eq_ok.mp hs'
    cases hpush
    exact Nat.succ_le_succ hs

theorem heightens_comparison {s : EvalState} (hs : 2 ≤ s.stack.length) (op : Comparison) :
    Heightens 1 (step q columns row s ⟨op.opCode, 0⟩) := by
  have hfold : ∀ f, Heightens 1 (do (← s.binary f).foldPending) :=
    fun f => (heightens_binary hs f).bind fun _ => heightens_foldPending
  cases op <;> exact hfold _

/-- An operator finds a value on the stack and leaves one. -/
theorem heightens_operator {s : EvalState} (hs : 1 ≤ s.stack.length) (op : Operator) :
    Heightens 1 (step q columns row s op.instruction) := by
  have hconnective : ∀ f deferred, 1 ≤ deferred.stack.length →
      Heightens 1 (if 2 ≤ s.stack.length then s.binary f else .ok deferred) := by
    intro f deferred hdeferred
    split
    · next h => exact heightens_binary h f
    · exact heightens_ok hdeferred
  cases op with
  | and => exact hconnective _ _ hs
  | or => exact hconnective _ _ hs
  | not => exact heightens_unary hs _

/-- What a call appends keeps a value on the stack, and a leaf puts one there. -/
theorem exists_code (p : Predicate) (call : BuilderCall) :
    ∃ code, (call.apply p).program.instructions = p.program.instructions ++ code ∧ (∀ i ∈ code, i.op ≠ .return) ∧
      ∀ s : EvalState, call.isLeaf = true ∨ 1 ≤ s.stack.length → Heightens 1 (code.foldlM (step q columns row) s) := by
  have hleaf : ∀ leaf : Leaf, ∃ code,
      (leaf.call.apply p).program.instructions = p.program.instructions ++ code ∧ (∀ i ∈ code, i.op ≠ .return) ∧
        ∀ s : EvalState, Heightens 1 (code.foldlM (step q columns row) s) := by
    intro leaf
    refine ⟨_, by rw [leaf.apply_call]; exact comparison_instructions .., ?_, fun s => ?_⟩
    · cases leaf.op <;> simp [Comparison.opCode]
    · refine (heightens_loadColumn q columns row (Nat.zero_le _) _).bind fun s₁ h₁ => ?_
      refine (heightens_loadConst q columns row h₁ _).bind fun s₂ h₂ => ?_
      exact (heightens_comparison q columns row h₂ leaf.op).bind fun s₃ h₃ => heightens_ok h₃
  have htest : ∀ pred op column, (∀ s : EvalState, 1 ≤ s.stack.length → Heightens 1 (step q columns row s ⟨op, 0⟩)) →
      op ≠ .return → ∃ code, (p.nullTest pred op column).program.instructions = p.program.instructions ++ code ∧
        (∀ i ∈ code, i.op ≠ .return) ∧ ∀ s : EvalState, Heightens 1 (code.foldlM (step q columns row) s) := by
    intro pred op column hstep hop
    refine ⟨_, nullTest_instructions .., ?_, fun s => ?_⟩
    · simp [hop]
    · refine (heightens_loadColumn q columns row (Nat.zero_le _) _).bind fun s₁ h₁ => ?_
      exact (hstep s₁ h₁).bind fun s₂ h₂ => heightens_ok h₂
  have hoperator : ∀ op : Operator, ∃ code,
      (op.call.apply p).program.instructions = p.program.instructions ++ code ∧ (∀ i ∈ code, i.op ≠ .return) ∧
        ∀ s : EvalState, op.call.isLeaf = true ∨ 1 ≤ s.stack.length →
          Heightens 1 (code.foldlM (step q columns row) s) := by
    intro op
    have happly := congrArg (fun p => p.program.instructions) (Operator.foldl_apply [op] p)
    refine ⟨[op].map Operator.instruction, happly, Operator.no_return [op], fun s hs => ?_⟩
    have hheight : 1 ≤ s.stack.length := hs.resolve_left (by cases op <;> exact Bool.false_ne_true)
    exact (heightens_operator q columns row hheight op).bind fun s' h' => heightens_ok h'
  have hany : ∀ {code : List Instruction}, (∀ s : EvalState, Heightens 1 (code.foldlM (step q columns row) s)) →
      ∀ s : EvalState, call.isLeaf = true ∨ 1 ≤ s.stack.length → Heightens 1 (code.foldlM (step q columns row) s) :=
    fun h s _ => h s
  cases call with
  | eq t col val => exact (hleaf ⟨.eq, t, col, val⟩).imp fun _ h => ⟨h.1, h.2.1, hany h.2.2⟩
  | ne t col val => exact (hleaf ⟨.ne, t, col, val⟩).imp fun _ h => ⟨h.1, h.2.1, hany h.2.2⟩
  | lt t col val => exact (hleaf ⟨.lt, t, col, val⟩).imp fun _ h => ⟨h.1, h.2.1, hany h.2.2⟩
  | gt t col val => exact (hleaf ⟨.gt, t, col, val⟩).imp fun _ h => ⟨h.1, h.2.1, hany h.2.2⟩
  | null col =>
    exact (htest .isNull .isNull col (fun s hs => heightens_unary hs fun a => truth (a == 0)) (by decide)).imp
      fun _ h => ⟨h.1, h.2.1, hany h.2.2⟩
  | notNull col =>
    exact (htest .isNotNull .isNotNull col (fun s hs => heightens_unary hs fun a => truth (a != 0)) (by decide)).imp
      fun _ h => ⟨h.1, h.2.1, hany h.2.2⟩
  | and => exact hoperator .and
  | or => exact hoperator .or
  | not => exact hoperator .not

/-- The calls from a leaf on, or from any point with a value on the stack. -/
theorem exists_codes (p : Predicate) (calls : List BuilderCall) :
    ∃ code, (calls.foldl BuilderCall.apply p).program.instructions = p.program.instructions ++ code ∧
      (∀ i ∈ code, i.op ≠ .return) ∧
      ∀ s : EvalState, (∀ call ∈ calls.head?, call.isLeaf = true) ∨ 1 ≤ s.stack.length →
        Avoids .emptyStack (code.foldlM (step q columns row) s) := by
  induction calls generalizing p with
  | nil => exact ⟨[], (List.append_nil _).symm, nofun, fun s _ => avoids_ok _ s⟩
  | cons call rest ih =>
    obtain ⟨first, hfirst, hfirstReturn, hfirstHeight⟩ := exists_code q columns row p call
    obtain ⟨others, hothers, hothersReturn, hothersHeight⟩ := ih (call.apply p)
    refine ⟨first ++ others, ?_, ?_, fun s hs => ?_⟩
    · rw [List.foldl_cons, hothers, hfirst, List.append_assoc]
    · intro i hi
      exact (List.mem_append.mp hi).elim (hfirstReturn i) (hothersReturn i)
    · rw [List.foldlM_append]
      obtain ⟨havoids, hheight⟩ := hfirstHeight s (hs.imp_left fun h => h call rfl)
      exact havoids.bind fun s₁ hs₁ => hothersHeight s₁ (.inr (hheight s₁ hs₁))

end Code

/-! ### Evaluation -/

/-- The calls before the first leaf are operators, and what follows begins with it. -/
theorem exists_leading (calls : List BuilderCall) : ∃ ops : List Operator, ∃ rest,
    calls = ops.map Operator.call ++ rest ∧ (.not ∈ leading calls ↔ .not ∈ ops) ∧
      ∀ call ∈ rest.head?, call.isLeaf = true := by
  induction calls with
  | nil => exact ⟨[], [], rfl, by simp [leading], nofun⟩
  | cons call calls ih =>
    obtain ⟨ops, rest, rfl, hiff, hleaf⟩ := ih
    have hoperator : ∀ op : Operator, ∃ ops' : List Operator, ∃ rest',
        op.call :: (ops.map Operator.call ++ rest) = ops'.map Operator.call ++ rest' ∧
          (.not ∈ leading (op.call :: (ops.map Operator.call ++ rest)) ↔ .not ∈ ops') ∧
          ∀ call ∈ rest'.head?, call.isLeaf = true := by
      intro op
      refine ⟨op :: ops, rest, rfl, ?_, hleaf⟩
      have hleading : leading (op.call :: (ops.map Operator.call ++ rest)) =
          op.call :: leading (ops.map Operator.call ++ rest) := by
        cases op <;> rfl
      rw [hleading, List.mem_cons, List.mem_cons, hiff]
      refine or_congr_left ?_
      cases op <;> simp [Operator.call]
    by_cases hcall : call.isLeaf = true
    · refine ⟨[], call :: (ops.map Operator.call ++ rest), rfl, ?_, fun c hc => Option.some.inj hc ▸ hcall⟩
      simp [leading, hcall]
    · cases call with
      | and => exact hoperator .and
      | or => exact hoperator .or
      | not => exact hoperator .not
      | _ => exact absurd rfl hcall

/-- **No instruction of a built program pops the empty stack, on any row of any columns,
exactly when no `Not` is called before the first leaf.** -/
theorem pops_safely_iff (calls : List BuilderCall) (prior : EvalState) (columns : Columns) (row : Nat) :
    evaluateRow (build calls).program prior columns row ≠ .error .emptyStack ↔ .not ∉ leading calls := by
  obtain ⟨ops, rest, rfl, hiff, hleaf⟩ := exists_leading calls
  generalize hq : (build (ops.map Operator.call ++ rest)).program = q
  obtain ⟨code, hcode, hreturn, havoids⟩ :=
    exists_codes q columns row ((ops.map Operator.call).foldl BuilderCall.apply {}) rest
  have hinstructions : q.instructions = ops.map Operator.instruction ++ code := by
    rw [← hq, build, List.foldl_append, hcode, Operator.foldl_apply]
    rfl
  rw [hiff, evaluateRow, hinstructions, execute_append (Operator.no_return ops)]
  by_cases hnot : .not ∈ ops
  · rw [Operator.foldlM_not hnot rfl]
    exact iff_of_false (fun h => h rfl) (fun h => h hnot)
  · obtain ⟨s, hs, -⟩ := @Operator.foldlM_empty q columns row ops hnot
      {prior with stack := [], pendingAnd := false, pendingOr := false} rfl
    rw [hs, bind_ok, ← List.append_nil code, execute_append hreturn]
    refine iff_of_true ?_ hnot
    exact (havoids s (.inl hleaf)).bind fun s' _ => avoids_ok _ _

/-- A `Not` before any leaf. -/
theorem leadingNot_pops_empty :
    evaluateRow (build [.or, .not, .gt .int32 0 3]).program {} [[5]] 0 = .error .emptyStack := rfl

end ColumnarStore.Predicates
