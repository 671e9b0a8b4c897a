/-
Operations with their blocks closed, as a grammar: plain operations, and blocks of one part or of two. Beside it, what
the operations that open, turn and close blocks do, and what any other operation does inside a block that is taken and
inside one that is not.

Results:
- `execute_plain`: where an operation is executed, the open blocks and the place in the script do not matter to it, as
  long as it is not about signatures.
- `execute_skipped`: inside a block that is not taken, such an operation does nothing.
-/
import BitcoinScript.Proofs.Operation

namespace BitcoinScript

/-! ## Operations -/

namespace Opcode

/-- opens a block -/
def opener (negated : Bool) : Opcode :=
  ⟨if negated then 0x64 else 0x63⟩

/-- turns a block to its second part -/
def turner : Opcode := ⟨0x67⟩

/-- closes a block -/
def closer : Opcode := ⟨0x68⟩

@[simp] theorem instruction?_opener (negated : Bool) :
    (opener negated).instruction? = some (.flow (.openBlock negated)) := by
  cases negated <;> rfl

end Opcode

namespace Operation

/-- the operations that open, turn and close blocks -/
def ofBlocks : List Operation :=
  [.code (.opener false), .code (.opener true), .code .turner, .code .closer]

/-- whether an operation neither opens nor turns nor closes a block -/
def isPlain (operation : Operation) : Bool :=
  !(ofBlocks.contains operation)

/-- whether an operation may be skipped, and does not depend on its place in the script where it is not -/
def isMovable : Operation → Bool
  | .push _ => true
  | .code op =>
    !op.isDisabled &&
      match op.instruction? with
      | some .codeSeparator | some (.signature _) => false
      | _ => true

theorem not_isFlow_of_isPlain {op : Opcode} {instruction : Instruction} (hp : (code op).isPlain)
    (hi : op.instruction? = some instruction) : instruction.isFlow = false := by
  have htable : ∀ entry ∈ instructionTable, entry.2.isFlow → (code ⟨entry.1⟩).isPlain = false := by decide
  have hmem : (op.byte, instruction) ∈ instructionTable := Opcode.mem_of_instruction? hi
  cases hf : instruction.isFlow with
  | false => rfl
  | true =>
    have hn : (code op).isPlain = false := htable _ hmem hf
    rw [hp] at hn
    cases hn

end Operation

/-- operations with their blocks closed -/
inductive Body where
  | empty
  | plain (operation : Operation) (h : operation.isPlain) (rest : Body)
  /-- a block of one part -/
  | when (negated : Bool) (first rest : Body)
  /-- a block of two parts -/
  | choose (negated : Bool) (first second rest : Body)

namespace Body

/-- the operations, one after another -/
def operations : Body → List Operation
  | empty => []
  | plain operation _ rest => operation :: rest.operations
  | when negated first rest => .code (.opener negated) :: (first.operations ++ .code .closer :: rest.operations)
  | choose negated first second rest =>
    .code (.opener negated) ::
      (first.operations ++ .code .turner :: (second.operations ++ .code .closer :: rest.operations))

end Body

/-! ## Opening, turning and closing -/

section

variable {ctx : Context} {s : State} {negated : Bool} {branches : Branches}

theorem Instruction.ready_flow {flow : FlowOp} (h : s.executing → flow.depth ≤ s.main.length) :
    (Instruction.flow flow).ready ctx s = .ok () := by
  rw [ready]
  cases hx : s.executing with
  | false => rfl
  | true => exact Stack.require_eq_ok (h hx)

theorem execute_flow {op : Opcode} {flow : FlowOp} {s' : State} {action : Action}
    (hi : op.instruction? = some (.flow flow)) (hn : s.executing → flow.depth ≤ s.main.length)
    (ha : flow.apply s = .ok (s', action)) (hs : s'.items ≤ stackLimit) :
    execute ctx (.code op) s = (s', .ok action) := by
  rw [execute_code_eq hi (Bool.or_true _), Instruction.ready_flow hn]
  show op.conclude s (flow.apply s) = _
  rw [ha, Opcode.conclude, State.sized_of_le hs]

theorem execute_opener {item : Bytes} {rest : Stack} (hx : s.executing) (hs : s.items ≤ stackLimit)
    (hm : s.main = item :: rest) :
    ∃ action, execute ctx (.code (.opener negated)) s =
      ({ s with main := rest, branches := s.branches.push (Number.isTrue item != negated) }, .ok action) := by
  obtain ⟨main, alt, branches, pc, start⟩ := s
  simp only at hm
  subst hm
  have hs' : rest.length + alt.length ≤ stackLimit := by
    simp only [State.items, List.length_cons] at hs
    omega
  exact ⟨_, execute_flow (Opcode.instruction?_opener negated)
    (fun _ => Nat.le_add_left 1 rest.length) (if_pos hx) hs'⟩

theorem execute_opener_empty (hx : s.executing) (hm : s.main = []) :
    execute ctx (.code (.opener negated)) s =
      (s, .error (.within (Opcode.opener negated).name (.tooFewItems 1 0))) := by
  have hr : (Instruction.flow (.openBlock negated)).ready ctx s = .error (.tooFewItems 1 0) := by
    simp only [Instruction.ready, hx, Instruction.needsTransaction, Bool.not_true, Bool.false_and, Bool.false_eq_true,
      if_false, Instruction.depth, FlowOp.depth, hm]
    rfl
  rw [execute_code_eq (Opcode.instruction?_opener negated) (Bool.or_true _), hr]
  rfl

theorem execute_opener_skipped (hx : s.executing = false) (hs : s.items ≤ stackLimit) :
    ∃ action, execute ctx (.code (.opener negated)) s =
      ({ s with branches := s.branches.push false }, .ok action) := by
  have ha : FlowOp.apply s (.openBlock negated) = .ok (s.enterBlock false, .openedInSkipped) := by
    simp only [FlowOp.apply, hx, Bool.false_eq_true, if_false]
  exact ⟨_, execute_flow (Opcode.instruction?_opener negated)
    (fun hx' => absurd hx' (by rw [hx]; exact Bool.false_ne_true)) ha hs⟩

theorem execute_turner (hs : s.items ≤ stackLimit) (ht : s.branches.turn? = some branches) :
    ∃ action, execute ctx (.code .turner) s = ({ s with branches }, .ok action) := by
  have ha : FlowOp.apply s .turnBlock = .ok ({ s with branches }, .turned branches.allTaken) := by
    simp only [FlowOp.apply, State.turnBlock, ht]
    rfl
  exact ⟨_, execute_flow rfl (fun _ => Nat.zero_le _) ha hs⟩

theorem execute_closer (hs : s.items ≤ stackLimit) (hp : s.branches.pop? = some branches) :
    ∃ action, execute ctx (.code .closer) s = ({ s with branches }, .ok action) := by
  have ha : FlowOp.apply s .closeBlock = .ok ({ s with branches }, .closed branches.count) := by
    simp only [FlowOp.apply, State.exitBlock, hp]
    rfl
  exact ⟨_, execute_flow rfl (fun _ => Nat.zero_le _) ha hs⟩

end

/-! ## Plain operations -/

/-- a plain operation that may be skipped is, inside a block that is not taken -/
theorem execute_skipped {ctx : Context} {operation : Operation} {s : State} (hx : s.executing = false)
    (hp : operation.isPlain) (hm : operation.isMovable) : ∃ action, execute ctx operation s = (s, .ok action) := by
  cases operation with
  | push data => exact ⟨_, (Operation.Skipped.push data hx).execute_eq ctx⟩
  | code op =>
    have hd : op.isDisabled = false := by
      simp only [Operation.isMovable, Bool.and_eq_true, Bool.not_eq_true'] at hm
      exact hm.1
    have hk : (Operation.code op).Skipped s (.skipped op) := .code hx hd fun _ => Operation.not_isFlow_of_isPlain hp
    exact ⟨_, hk.execute_eq ctx⟩

/-- the two stacks -/
structure Stacks where
  main : Stack
  alt : Stack

/-- the two stacks of a state -/
def State.stacks (s : State) : Stacks :=
  ⟨s.main, s.alt⟩

/-- a state with other stacks -/
def State.withStacks (s : State) (p : Stacks) : State :=
  { s with main := p.main, alt := p.alt }

theorem Instruction.apply_movable {ctx : Context} {op : Opcode} {instruction : Instruction} {s t : State}
    (hi : op.instruction? = some instruction) (hf : instruction.isFlow = false) (hm : (Operation.code op).isMovable)
    (h : s.stacks = t.stacks) :
    (∃ failure, instruction.apply ctx s = .error failure ∧ instruction.apply ctx t = .error failure) ∨
      ∃ p action, instruction.apply ctx s = .ok (s.withStacks p, action) ∧
        instruction.apply ctx t = .ok (t.withStacks p, action) := by
  obtain ⟨main, alt, branches, pc, start⟩ := s
  obtain ⟨main', alt', branches', pc', start'⟩ := t
  cases h
  simp only [Operation.isMovable, hi, Bool.and_eq_true] at hm
  cases instruction with
  | flow op => cases hf
  | codeSeparator => cases hm.2
  | signature op => cases hm.2
  | stack op =>
    simp only [apply]
    cases op.apply ctx.strict main with
    | error failure => exact .inl ⟨failure, rfl, rfl⟩
    | ok r => exact .inr ⟨⟨r.1, alt⟩, r.2, rfl, rfl⟩
  | toAlt =>
    cases main with
    | nil => exact .inl ⟨_, rfl, rfl⟩
    | cons item rest => exact .inr ⟨⟨rest, item :: alt⟩, _, rfl, rfl⟩
  | fromAlt =>
    cases alt with
    | nil => exact .inl ⟨_, rfl, rfl⟩
    | cons item rest => exact .inr ⟨⟨item :: main, rest⟩, _, rfl, rfl⟩

/-- where it is executed, a plain operation that may be moved does the same to the same stacks, and nothing else -/
theorem execute_plain {ctx : Context} {operation : Operation} (hp : operation.isPlain) (hm : operation.isMovable)
    {s t : State} (hs : s.executing) (ht : t.executing) (h : s.stacks = t.stacks) :
    ∃ p result, execute ctx operation s = (s.withStacks p, result) ∧
      execute ctx operation t = (t.withStacks p, result) := by
  rw [execute_eq_apply, execute_eq_apply]
  cases operation with
  | push data =>
    obtain ⟨main, alt, branches, pc, start⟩ := s
    obtain ⟨main', alt', branches', pc', start'⟩ := t
    cases h
    simp only [Operation.apply, hs, ht, if_true]
    exact ⟨⟨data :: main, alt⟩, _, rfl, rfl⟩
  | code op =>
    have hd : op.isDisabled = false := by
      simp only [Operation.isMovable, Bool.and_eq_true, Bool.not_eq_true'] at hm
      exact hm.1
    simp only [Operation.apply, hd, hs, ht, Bool.false_eq_true, if_false, Bool.not_true, Bool.false_and, if_true]
    cases hi : op.instruction? with
    | none => exact ⟨s.stacks, _, rfl, by rw [h]; rfl⟩
    | some instruction =>
      have hf : instruction.isFlow = false := Operation.not_isFlow_of_isPlain hp hi
      have hready : instruction.ready ctx s = instruction.ready ctx t := by
        have hmain : s.main = t.main := congrArg Stacks.main h
        simp only [Instruction.ready, hs, ht, hmain]
      simp only [hready]
      cases instruction.ready ctx t with
      | error failure => exact ⟨s.stacks, _, rfl, by rw [h]; rfl⟩
      | ok _ =>
        rcases Instruction.apply_movable hi hf hm h with ⟨failure, ha, ha'⟩ | ⟨p, action, ha, ha'⟩
        · refine ⟨s.stacks, .error (.within op.name failure), ?_, ?_⟩
          · show op.conclude s (instruction.apply ctx s) = _
            rw [ha]
            rfl
          · show op.conclude t (instruction.apply ctx t) = _
            rw [ha', h]
            rfl
        · refine ⟨p, (s.withStacks p).checkSize.map fun _ => action, ?_, ?_⟩
          · show op.conclude s (instruction.apply ctx s) = _
            rw [ha]
            rfl
          · show op.conclude t (instruction.apply ctx t) = _
            rw [ha']
            rfl

end BitcoinScript
