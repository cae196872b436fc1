import ColumnarStore.Predicate.Postfix

/-! Chains with null tests in them.

A comparison folds what was deferred; a null test does not. So a null test behind a
connective leaves two values and the flag (`Dangling`). The next connective then finds two
values and folds them itself, in the place of the one that was deferred, whose flag stays
for the leaf after it. A chain comes out folded exactly when no null test of several
leaves is the last (`folded_iff`). Which value a leaf reads does not matter for that, so a
chain may have more leaves than there are operands. -/
namespace ColumnarStore.Predicates
open Foundation

/-! ### Chains -/

inductive MixedLeaf where
  | comparison (leaf : Leaf)
  | null (column : Nat)
  | notNull (column : Nat)

namespace MixedLeaf

def call : MixedLeaf → BuilderCall
  | comparison leaf => leaf.call
  | null column => .null column
  | notNull column => .notNull column

def column : MixedLeaf → Nat
  | comparison leaf => leaf.column
  | null column => column
  | notNull column => column

def predicateType : MixedLeaf → PredicateType
  | comparison leaf => leaf.op.predicateType
  | null _ => .isNull
  | notNull _ => .isNotNull

/-- The constant of a comparison; a null test has none. -/
def constant? : MixedLeaf → Option Int64Bits
  | comparison leaf => some leaf.constant
  | null _ => none
  | notNull _ => none

def IsComparison : MixedLeaf → Prop
  | comparison _ => True
  | null _ => False
  | notNull _ => False

end MixedLeaf

/-- A leaf, then connectives each with its leaf. -/
structure MixedChain where
  head : MixedLeaf
  tail : List (Connective × MixedLeaf) := []

namespace MixedChain

def leaves (c : MixedChain) : List MixedLeaf := c.head :: c.tail.map Prod.snd

def linkCalls (l : Connective × MixedLeaf) : List BuilderCall := [l.1.call, l.2.call]

def calls (c : MixedChain) : List BuilderCall := c.head.call :: c.tail.flatMap linkCalls

def predicate (c : MixedChain) : Predicate := build c.calls

/-- An evaluation ends with one value on the stack and nothing deferred. -/
def Folded (c : MixedChain) (prior : EvalState) (columns : Columns) (row : Nat) : Prop :=
  ∃ b s, evaluateRow c.predicate.program prior columns row = .ok (b, s) ∧ s.stack.length = 1 ∧ s.Idle

end MixedChain

/-! ### The tables of a chain -/

/-- The predicate has an entry and a column for each of the leaves, and a constant for
each of the comparisons among them. -/
structure MixedTables (p : Predicate) (leaves : List MixedLeaf) : Prop where
  columnPredicates : p.columnPredicates = leaves.map MixedLeaf.predicateType
  columnIndices : p.program.columnIndices = leaves.map MixedLeaf.column
  constants : p.program.constants = leaves.filterMap MixedLeaf.constant?

theorem MixedTables.nullTest {p : Predicate} {leaves : List MixedLeaf} (h : MixedTables p leaves)
    (leaf : MixedLeaf) (op : OpCode) (hleaf : leaf.constant? = none) :
    MixedTables (p.nullTest leaf.predicateType op leaf.column) (leaves ++ [leaf]) := by
  constructor
  · simp [Predicate.nullTest, h.columnPredicates]
  · simp [Predicate.nullTest, BytecodeProgram.emit, BytecodeProgram.addColumn, h.columnIndices]
  · simp [Predicate.nullTest, BytecodeProgram.emit, BytecodeProgram.addColumn, h.constants, hleaf]

theorem MixedTables.leaf {p : Predicate} {leaves : List MixedLeaf} (h : MixedTables p leaves)
    (leaf : MixedLeaf) : MixedTables (leaf.call.apply p) (leaves ++ [leaf]) := by
  cases leaf with
  | comparison leaf =>
    rw [MixedLeaf.call, leaf.apply_call]
    constructor
    · simp [Predicate.comparison, h.columnPredicates, MixedLeaf.predicateType]
    · simp [Predicate.comparison, BytecodeProgram.emit, BytecodeProgram.addConstant,
        BytecodeProgram.addColumn, h.columnIndices, MixedLeaf.column]
    · simp [Predicate.comparison, BytecodeProgram.emit, BytecodeProgram.addConstant,
        BytecodeProgram.addColumn, h.constants, MixedLeaf.constant?]
  | null column => exact h.nullTest (.null column) .isNull rfl
  | notNull column => exact h.nullTest (.notNull column) .isNotNull rfl

theorem MixedTables.links {p : Predicate} {leaves : List MixedLeaf} (h : MixedTables p leaves)
    (tail : List (Connective × MixedLeaf)) :
    MixedTables ((tail.flatMap MixedChain.linkCalls).foldl BuilderCall.apply p)
      (leaves ++ tail.map Prod.snd) := by
  induction tail generalizing p leaves with
  | nil => simpa using h
  | cons l rest ih =>
    have hconnective : MixedTables (l.1.call.apply p) leaves := by
      cases l.1 <;> exact ⟨h.columnPredicates, h.columnIndices, h.constants⟩
    rw [List.flatMap_cons, List.foldl_append, List.map_cons, List.append_cons]
    exact ih (hconnective.leaf l.2)

theorem mixedTables_chain (c : MixedChain) : MixedTables c.predicate c.leaves := by
  have hempty : MixedTables {} [] := ⟨rfl, rfl, rfl⟩
  exact (hempty.leaf c.head).links c.tail

/-! ### States between calls -/

namespace EvalState

/-- One value, nothing deferred. -/
def Settled (s : EvalState) : Prop := s.stack.length = 1 ∧ s.Idle

/-- Exactly one connective is deferred. -/
def Deferring (s : EvalState) : Prop := (s.pendingAnd ^^ s.pendingOr) = true

/-- The left operand, and the connective that waits for the right one. -/
def Awaiting (s : EvalState) : Prop := s.stack.length = 1 ∧ s.Deferring

/-- Both operands, and the connective still waiting. -/
def Dangling (s : EvalState) : Prop := s.stack.length = 2 ∧ s.Deferring

/-- What leaf `leaf` leaves behind a connective. -/
def After (leaf : MixedLeaf) (s : EvalState) : Prop :=
  match leaf with
  | .comparison _ => s.Settled
  | .null _ => s.Dangling
  | .notNull _ => s.Dangling

theorem After.settled_or_dangling {leaf : MixedLeaf} {s : EvalState} (h : s.After leaf) :
    s.Settled ∨ s.Dangling := by
  cases leaf with
  | comparison leaf => exact .inl h
  | null column => exact .inr h
  | notNull column => exact .inr h

/-- A dangling state is not settled. -/
theorem After.settled_iff {leaf : MixedLeaf} {s : EvalState} (h : s.After leaf) :
    s.Settled ↔ leaf.IsComparison := by
  have hdangling : s.Dangling → ¬ s.Settled := by
    intro hd hs
    have htwo := hd.1
    have hone := hs.1
    omega
  cases leaf with
  | comparison leaf => exact iff_of_true h trivial
  | null column => exact iff_of_false (hdangling h) id
  | notNull column => exact iff_of_false (hdangling h) id

/-- With two values and one deferred connective the fold leaves one value. -/
theorem Dangling.foldPending {s : EvalState} (h : s.Dangling) :
    ∃ s', s.foldPending = .ok s' ∧ s'.Settled := by
  obtain ⟨stack, pendingAnd, pendingOr⟩ := s
  obtain ⟨htwo, hone⟩ := h
  obtain ⟨b, a, rfl⟩ := List.length_eq_two.mp htwo
  cases pendingAnd <;> cases pendingOr
  · cases hone
  · exact ⟨_, rfl, rfl, rfl, rfl⟩
  · exact ⟨_, rfl, rfl, rfl, rfl⟩
  · cases hone

end EvalState

/-! ### Steps -/

section Execution
variable {q : BytecodeProgram} {columns : Columns} {row : Nat} {vals : Nat → Int64Bits}

/-- Behind a leaf a connective is deferred, or takes the place of the one that is. -/
theorem Reaches.mixedConnective {p : Predicate} {s : EvalState} (h : Reaches q columns row p.program s)
    (hs : s.Settled ∨ s.Dangling) (op : Connective) :
    ∃ s', Reaches q columns row (op.call.apply p).program s' ∧ s'.Awaiting := by
  obtain ⟨stack, pendingAnd, pendingOr⟩ := s
  rcases hs with ⟨hone, rfl, rfl⟩ | ⟨htwo, hdeferring⟩
  · obtain ⟨a, rfl⟩ := List.length_eq_one_iff.mp hone
    cases op with
    | and => exact ⟨_, h.append rfl (by simp) rfl, rfl, rfl⟩
    | or => exact ⟨_, h.append rfl (by simp) rfl, rfl, rfl⟩
  · obtain ⟨b, a, rfl⟩ := List.length_eq_two.mp htwo
    cases op with
    | and => exact ⟨_, h.append rfl (by simp) rfl, rfl, hdeferring⟩
    | or => exact ⟨_, h.append rfl (by simp) rfl, rfl, hdeferring⟩

/-- A leaf's operand leads to one of the columns. -/
theorem exists_loadCell (hcells : ∀ c ∈ q.columnIndices, Shows columns row vals c) {table : List Nat}
    {column : Nat} (hcolumn : table ++ [column] <+: q.columnIndices) :
    ∃ x, loadCell q columns row (table.length % 2 ^ 32) = .ok x := by
  obtain ⟨col, hmem, hcol⟩ := exists_operand hcolumn
  exact ⟨vals col, loadCell_eq hcol (hcells col hmem)⟩

/-- A null test pushes its truth value and folds nothing. -/
theorem Reaches.nullTest {p : Predicate} {s : EvalState} (h : Reaches q columns row p.program s)
    {pred : PredicateType} {op : OpCode} {column : Nat} {test : Int64Bits → Bool} (hop : op ≠ .return)
    (hstep : ∀ a, step q columns row {s with stack := a :: s.stack} ⟨op, 0⟩ = .ok (s.push (truth (test a))))
    {x : Int64Bits} (hcell : loadCell q columns row (p.program.columnIndices.length % 2 ^ 32) = .ok x) :
    Reaches q columns row (p.nullTest pred op column).program (s.push (truth (test x))) := by
  refine h.append (nullTest_instructions ..) (by simp [hop]) ?_
  have hload : step q columns row s ⟨.loadColumn, p.program.columnIndices.length % 2 ^ 32⟩ = .ok (s.push x) := by
    show loadCell q columns row _ >>= _ = _
    rw [hcell]
    rfl
  rw [List.foldlM_cons, hload, bind_ok, List.foldlM_cons]
  exact (congrArg (· >>= _) (hstep x)).trans rfl

theorem Reaches.null {p : Predicate} {s : EvalState} (h : Reaches q columns row p.program s) (column : Nat)
    {x : Int64Bits} (hcell : loadCell q columns row (p.program.columnIndices.length % 2 ^ 32) = .ok x) :
    Reaches q columns row (p.isNull column).program (s.push (truth (decide (x.toInt = 0)))) :=
  h.nullTest (by decide) (step_isNull q columns row s) hcell

theorem Reaches.notNull {p : Predicate} {s : EvalState} (h : Reaches q columns row p.program s) (column : Nat)
    {x : Int64Bits} (hcell : loadCell q columns row (p.program.columnIndices.length % 2 ^ 32) = .ok x) :
    Reaches q columns row (p.isNotNull column).program (s.push (truth (decide (x.toInt ≠ 0)))) :=
  h.nullTest (by decide) (step_isNotNull q columns row s) hcell

/-- Whatever its value, a leaf pushes one, and a comparison folds. -/
theorem Reaches.mixedLeaf {p : Predicate} {s : EvalState} (h : Reaches q columns row p.program s)
    (leaf : MixedLeaf) (hq : Extends (leaf.call.apply p).program q)
    (hcells : ∀ c ∈ q.columnIndices, Shows columns row vals c) :
    ∃ b, (leaf.IsComparison → ∀ s', (s.push (truth b)).foldPending = .ok s' →
        Reaches q columns row (leaf.call.apply p).program s') ∧
      (¬leaf.IsComparison → Reaches q columns row (leaf.call.apply p).program (s.push (truth b))) := by
  cases leaf with
  | comparison leaf =>
    rw [MixedLeaf.call, leaf.apply_call] at hq
    have hcolumn : p.program.columnIndices ++ [leaf.column] <+: q.columnIndices := hq.columnIndices
    have hconstant : p.program.constants ++ [leaf.constant] <+: q.constants := hq.constants
    obtain ⟨x, hcell⟩ := exists_loadCell hcells hcolumn
    obtain ⟨y, -, hconst⟩ := exists_operand hconstant
    exact ⟨_, fun _ _ hs => h.compare leaf hcell hconst hs, fun hnot => absurd trivial hnot⟩
  | null column =>
    have hcolumn : p.program.columnIndices ++ [column] <+: q.columnIndices := hq.columnIndices
    obtain ⟨x, hcell⟩ := exists_loadCell hcells hcolumn
    exact ⟨_, False.elim, fun _ => h.null column hcell⟩
  | notNull column =>
    have hcolumn : p.program.columnIndices ++ [column] <+: q.columnIndices := hq.columnIndices
    obtain ⟨x, hcell⟩ := exists_loadCell hcells hcolumn
    exact ⟨_, False.elim, fun _ => h.notNull column hcell⟩

/-- A first leaf leaves its value, whatever it is. -/
theorem Reaches.mixedHead (leaf : MixedLeaf) (hq : Extends (leaf.call.apply {}).program q)
    (hcells : ∀ c ∈ q.columnIndices, Shows columns row vals c) :
    ∃ s, Reaches q columns row (leaf.call.apply {}).program s ∧ s.Settled := by
  have hempty : Reaches q columns row (Predicate.program {}) {} := reaches_nil
  obtain ⟨b, hcompared, htested⟩ := hempty.mixedLeaf leaf hq hcells
  by_cases hleaf : leaf.IsComparison
  · exact ⟨_, hcompared hleaf _ (fold_empty b), rfl, rfl, rfl⟩
  · exact ⟨_, htested hleaf, rfl, rfl, rfl⟩

/-- A connective and its leaf. -/
theorem Reaches.mixedLink {p : Predicate} {s : EvalState} (h : Reaches q columns row p.program s)
    (hs : s.Settled ∨ s.Dangling) (l : Connective × MixedLeaf)
    (hq : Extends ((MixedChain.linkCalls l).foldl BuilderCall.apply p).program q)
    (hcells : ∀ c ∈ q.columnIndices, Shows columns row vals c) :
    ∃ s', Reaches q columns row ((MixedChain.linkCalls l).foldl BuilderCall.apply p).program s' ∧
      s'.After l.2 := by
  obtain ⟨op, leaf⟩ := l
  obtain ⟨waiting, hwaiting, hone, hdeferring⟩ := h.mixedConnective hs op
  have hpushed : ∀ x, (waiting.push x).Dangling := fun x => ⟨congrArg (· + 1) hone, hdeferring⟩
  obtain ⟨b, hcompared, htested⟩ := hwaiting.mixedLeaf leaf hq hcells
  cases leaf with
  | comparison leaf =>
    obtain ⟨s', hfold, hsettled⟩ := (hpushed (truth b)).foldPending
    exact ⟨s', hcompared trivial s' hfold, hsettled⟩
  | null column => exact ⟨_, htested id, hpushed _⟩
  | notNull column => exact ⟨_, htested id, hpushed _⟩

/-! ### Chains -/

/-- The links of a chain: what is left is what the last leaf leaves. -/
theorem Reaches.mixedLinks {p : Predicate} {s : EvalState} (h : Reaches q columns row p.program s)
    (hs : s.Settled) (tail : List (Connective × MixedLeaf))
    (hq : Extends ((tail.flatMap MixedChain.linkCalls).foldl BuilderCall.apply p).program q)
    (hcells : ∀ c ∈ q.columnIndices, Shows columns row vals c) :
    ∃ s', Reaches q columns row ((tail.flatMap MixedChain.linkCalls).foldl BuilderCall.apply p).program s' ∧
      (s'.Settled ∨ s'.Dangling) ∧ (s'.Settled ↔ ∀ l ∈ tail.getLast?, l.2.IsComparison) := by
  induction tail using List.reverseRecOn with
  | nil => exact ⟨s, h, .inl hs, iff_of_true hs (by simp)⟩
  | append_singleton before l ih =>
    rw [List.flatMap_append, List.flatMap_singleton, List.foldl_append] at hq ⊢
    obtain ⟨s₁, h₁, hs₁, -⟩ := ih ((extends_calls _ _).trans hq)
    obtain ⟨s₂, h₂, hafter⟩ := h₁.mixedLink hs₁ l hq hcells
    refine ⟨s₂, h₂, hafter.settled_or_dangling, hafter.settled_iff.trans ?_⟩
    simp

namespace MixedChain

/-- **A chain leaves one value and nothing deferred exactly when it has one leaf or a
comparison as its last one.** -/
theorem folded_iff (c : MixedChain) (hcells : ∀ leaf ∈ c.leaves, Shows columns row vals leaf.column)
    (prior : EvalState) :
    c.Folded prior columns row ↔ ∀ l ∈ c.tail.getLast?, l.2.IsComparison := by
  have hcalls : c.predicate = (c.tail.flatMap linkCalls).foldl BuilderCall.apply (c.head.call.apply {}) := rfl
  have hshown : ∀ col ∈ c.predicate.program.columnIndices, Shows columns row vals col := by
    rw [(mixedTables_chain c).columnIndices]
    exact List.forall_mem_map.mpr hcells
  obtain ⟨s, hhead, hs⟩ := Reaches.mixedHead (q := c.predicate.program) c.head
    (hcalls ▸ extends_calls _ _) hshown
  obtain ⟨s', hall, -, hsettled⟩ := hhead.mixedLinks hs c.tail (hcalls ▸ .refl _) hshown
  have heval := Reaches.evaluateRow (q := c.predicate.program) hall prior
  rw [Folded, heval, ← hsettled]
  constructor
  · intro h'
    obtain ⟨b, s'', hs'', hone⟩ := h'
    cases hs''
    exact hone
  · exact fun h => ⟨_, _, rfl, h⟩

end MixedChain

end Execution

namespace MixedChain

/-- A null test and a comparison, in this order: folded. -/
theorem nullFirst_folded :
    let c : MixedChain := ⟨.null 0, [(.and, .comparison ⟨.eq, .int32, 1, 1⟩)]⟩
    c.Folded {} [[0], [1]] 0 ↔ ∀ l ∈ c.tail.getLast?, l.2.IsComparison :=
  @folded_iff [[0], [1]] 0 (fun c => if c = 0 then 0 else 1)
    ⟨.null 0, [(.and, .comparison ⟨.eq, .int32, 1, 1⟩)]⟩ (by simp [leaves, Shows, MixedLeaf.column]) {}

/-- The other way round the `And` is lost: both truth values stay, and the flag. -/
theorem nullLast_not_folded :
    ¬ (⟨.comparison ⟨.eq, .int32, 1, 1⟩, [(.and, .null 0)]⟩ : MixedChain).Folded {} [[0], [1]] 0 := by
  intro h
  obtain ⟨b, s, heval, hone, -⟩ := h
  cases heval
  cases hone

end MixedChain

end ColumnarStore.Predicates
