/-
The balance of blocks. Which blocks are open before an operation, and whether each has been turned, is a matter of the
operations before it alone, whether these are executed or skipped; `nests` computes it without a machine. Operations
that leave no block open that way are those that the grammar of `Body` derives.

Results:
- `nests_eq_nil_iff`: operations nest if and only if they are operations with their blocks closed.
- `execute_nest`, `execute_refused`: an operation that succeeds nests, and one that fails for the balance does not.
- `balance_of_script`: after any calls, and while the run has not failed, the number of open blocks is the number of
  operations before the next one that open a block, less the number of those that close one, executed or skipped alike;
  a run that comes to its end is one of operations with their blocks closed, and no run of these fails for the balance.
-/
import BitcoinScript.Proofs.Conditional.Body
import BitcoinScript.Proofs.FailureKind
import BitcoinScript.Proofs.Session.Calls

namespace BitcoinScript

/-! ## Nesting -/

/-- the open blocks after an instruction on them, innermost first, each with whether it has been turned; none where the
instruction may not stand -/
def FlowOp.nest : FlowOp → List Bool → Option (List Bool)
  | .openBlock _, blocks => some (false :: blocks)
  | .turnBlock, false :: outer => some (true :: outer)
  | .turnBlock, _ => none
  | .closeBlock, _ :: outer => some outer
  | .closeBlock, [] => none

/-- the opcode of an instruction on blocks -/
def FlowOp.opcode : FlowOp → Opcode
  | .openBlock negated => .opener negated
  | .turnBlock => .turner
  | .closeBlock => .closer

/-- the instruction on blocks that an operation stands for, if it does -/
def Operation.flow? : Operation → Option FlowOp
  | .push _ => none
  | .code op =>
    match op.instruction? with
    | some (.flow flow) => some flow
    | _ => none

/-- the open blocks after an operation -/
def Operation.nest (operation : Operation) (blocks : List Bool) : Option (List Bool) :=
  match operation.flow? with
  | some flow => flow.nest blocks
  | none => some blocks

/-- the open blocks after operations -/
def nests : List Operation → List Bool → Option (List Bool)
  | [], blocks => some blocks
  | operation :: operations, blocks => (operation.nest blocks).bind (nests operations)

@[simp] theorem FlowOp.instruction?_opcode (flow : FlowOp) : flow.opcode.instruction? = some (.flow flow) := by
  rcases flow with ⟨_ | _⟩ | _ | _ <;> rfl

@[simp] theorem Operation.flow?_opcode (flow : FlowOp) : (code flow.opcode).flow? = some flow := by
  simp only [flow?, FlowOp.instruction?_opcode]

theorem Operation.eq_of_flow?_eq_some {operation : Operation} {flow : FlowOp} (h : operation.flow? = some flow) :
    operation = .code flow.opcode := by
  have htable : ∀ entry ∈ instructionTable, ∀ flow ∈ (code ⟨entry.1⟩).flow?, entry.1 = flow.opcode.byte := by decide
  cases operation with
  | push data => cases h
  | code op =>
    obtain ⟨byte⟩ := op
    obtain ⟨instruction, hi⟩ : ∃ instruction, Opcode.instruction? ⟨byte⟩ = some instruction := by
      cases hi : Opcode.instruction? ⟨byte⟩ with
      | some instruction => exact ⟨instruction, rfl⟩
      | none =>
        simp only [flow?, hi] at h
        cases h
    have hbyte : byte = flow.opcode.byte := htable _ (Opcode.mem_of_instruction? hi) flow h
    rw [hbyte]

theorem Operation.isPlain_iff {operation : Operation} : operation.isPlain ↔ operation.flow? = none := by
  constructor
  · intro hp
    cases hf : operation.flow? with
    | none => rfl
    | some flow =>
      rw [eq_of_flow?_eq_some hf] at hp
      rcases flow with ⟨_ | _⟩ | _ | _ <;> cases hp
  · intro hf
    rw [isPlain, Bool.not_eq_true', List.contains_eq_mem, decide_eq_false_iff_not]
    intro hm
    have hblocks : ∀ operation ∈ ofBlocks, operation.flow? ≠ none := by decide
    exact hblocks operation hm hf

section

variable {operation : Operation} {operations more : List Operation} {blocks blocks' : List Bool}

theorem nest_opcode (flow : FlowOp) (blocks : List Bool) :
    (Operation.code flow.opcode).nest blocks = flow.nest blocks := by
  simp only [Operation.nest, Operation.flow?_opcode]

theorem nest_of_isPlain (h : operation.isPlain) (blocks : List Bool) : operation.nest blocks = some blocks := by
  simp only [Operation.nest, Operation.isPlain_iff.1 h]

theorem nests_append (operations more : List Operation) (blocks : List Bool) :
    nests (operations ++ more) blocks = (nests operations blocks).bind (nests more) := by
  induction operations generalizing blocks with
  | nil => rfl
  | cons operation operations ih =>
    rw [List.cons_append, nests, nests, Option.bind_assoc]
    exact Option.bind_congr fun between _ => ih between

/-- whether the operation opens a block -/
def Operation.isOpener (operation : Operation) : Bool :=
  operation == .code (.opener false) || operation == .code (.opener true)

theorem length_nest (h : operation.nest blocks = some blocks') :
    blocks'.length + [operation].count (.code .closer) = blocks.length + [operation].countP Operation.isOpener := by
  cases hf : operation.flow? with
  | none =>
    simp only [Operation.nest, hf, Option.some.injEq] at h
    subst h
    have hp : operation.isPlain := Operation.isPlain_iff.2 hf
    have hc : operation ≠ .code .closer := by
      rintro rfl
      cases hp
    have ho : operation.isOpener = false := by
      rw [Operation.isOpener, Bool.or_eq_false_iff, beq_eq_false_iff_ne, beq_eq_false_iff_ne]
      constructor
      · rintro rfl
        cases hp
      · rintro rfl
        cases hp
    simp only [List.count_singleton, List.countP_singleton, ho, beq_eq_false_iff_ne.2 hc]
  | some flow =>
    obtain rfl := Operation.eq_of_flow?_eq_some hf
    rw [nest_opcode] at h
    unfold FlowOp.nest at h
    split at h <;> cases h
    · rename_i negated
      cases negated <;> rfl
    · rfl
    · rfl

theorem length_nests (h : nests operations blocks = some blocks') :
    blocks'.length + operations.count (.code .closer) = blocks.length + operations.countP Operation.isOpener := by
  induction operations generalizing blocks with
  | nil =>
    cases h
    rfl
  | cons operation operations ih =>
    obtain ⟨between, hn, h⟩ := Option.bind_eq_some_iff.1 h
    have hone := length_nest hn
    have hrest := ih h
    rw [← List.singleton_append, List.count_append, List.countP_append]
    omega

end

/-! ## The grammar -/

namespace Body

/-- operations with their blocks closed, one after the other -/
def append : Body → Body → Body
  | empty, more => more
  | plain operation h rest, more => plain operation h (rest.append more)
  | when negated first rest, more => when negated first (rest.append more)
  | choose negated first second rest, more => choose negated first second (rest.append more)

@[simp] theorem operations_append (body more : Body) :
    (body.append more).operations = body.operations ++ more.operations := by
  induction body with
  | empty => rfl
  | plain operation h rest ih => simp only [append, operations, ih, List.cons_append]
  | when negated first rest _ ih => simp only [append, operations, ih, List.cons_append, List.append_assoc]
  | choose negated first second rest _ _ ih =>
    simp only [append, operations, ih, List.cons_append, List.append_assoc]

/-- operations with their blocks closed leave the open blocks as they are -/
theorem nests_operations (body : Body) (blocks : List Bool) : nests body.operations blocks = some blocks := by
  have hopen : ∀ negated, (Operation.code (.opener negated)).nest = FlowOp.nest (.openBlock negated) :=
    fun negated => funext (nest_opcode (.openBlock negated))
  have hturn : (Operation.code .turner).nest = FlowOp.nest .turnBlock := funext (nest_opcode .turnBlock)
  have hclose : (Operation.code .closer).nest = FlowOp.nest .closeBlock := funext (nest_opcode .closeBlock)
  induction body generalizing blocks with
  | empty => rfl
  | plain operation h rest ih => rw [operations, nests, nest_of_isPlain h, Option.bind_some, ih]
  | when negated first rest ihFirst ihRest =>
    rw [operations, nests, hopen, FlowOp.nest, Option.bind_some, nests_append, ihFirst, Option.bind_some, nests, hclose,
      FlowOp.nest, Option.bind_some, ihRest]
  | choose negated first second rest ihFirst ihSecond ihRest =>
    rw [operations, nests, hopen, FlowOp.nest, Option.bind_some, nests_append, ihFirst, Option.bind_some, nests, hturn,
      FlowOp.nest, Option.bind_some, nests_append, ihSecond, Option.bind_some, nests, hclose, FlowOp.nest,
      Option.bind_some, ihRest]

end Body

/-- the operations close the open blocks from the inside out, each with its second part if that is still to come, and
have no others open in between or at the end -/
inductive Closes : List Bool → List Operation → Prop where
  | done (body : Body) : Closes [] body.operations
  | close {turned : Bool} {outer : List Bool} {operations : List Operation} (body : Body)
      (h : Closes outer operations) : Closes (turned :: outer) (body.operations ++ .code .closer :: operations)
  | turn {outer : List Bool} {operations : List Operation} (body : Body) (h : Closes (true :: outer) operations) :
      Closes (false :: outer) (body.operations ++ .code .turner :: operations)

namespace Closes

variable {blocks : List Bool} {operations : List Operation}

theorem append (body : Body) (h : Closes blocks operations) : Closes blocks (body.operations ++ operations) := by
  cases h with
  | done more =>
    rw [← Body.operations_append]
    exact .done _
  | close more h =>
    rw [← List.append_assoc, ← Body.operations_append]
    exact .close _ h
  | turn more h =>
    rw [← List.append_assoc, ← Body.operations_append]
    exact .turn _ h

theorem opener (negated : Bool) (h : Closes (false :: blocks) operations) :
    Closes blocks (.code (.opener negated) :: operations) := by
  cases h with
  | close first h =>
    have hblock := h.append (.when negated first .empty)
    simp only [Body.operations, List.cons_append, List.append_assoc, List.nil_append] at hblock
    exact hblock
  | turn first h =>
    cases h with
    | close second h =>
      have hblock := h.append (.choose negated first second .empty)
      simp only [Body.operations, List.cons_append, List.append_assoc, List.nil_append] at hblock
      exact hblock

end Closes

/-- operations that leave no block open close those that were. The induction is on the operations, each of which comes
before what closes the blocks that it leaves -/
theorem closes_of_nests {operations : List Operation} {blocks : List Bool} (h : nests operations blocks = some []) :
    Closes blocks operations := by
  induction operations generalizing blocks with
  | nil =>
    cases h
    exact .done .empty
  | cons operation operations ih =>
    obtain ⟨between, hn, h⟩ := Option.bind_eq_some_iff.1 h
    have hrest : Closes between operations := ih h
    cases hf : operation.flow? with
    | none =>
      have hp : operation.isPlain := Operation.isPlain_iff.2 hf
      rw [nest_of_isPlain hp] at hn
      cases hn
      exact hrest.append (.plain operation hp .empty)
    | some flow =>
      obtain rfl := Operation.eq_of_flow?_eq_some hf
      rw [nest_opcode] at hn
      unfold FlowOp.nest at hn
      split at hn <;> cases hn
      · exact hrest.opener _
      · exact hrest.turn .empty
      · exact hrest.close .empty

/-- operations nest if and only if they are operations with their blocks closed -/
theorem nests_eq_nil_iff (operations : List Operation) :
    nests operations [] = some [] ↔ ∃ body : Body, body.operations = operations := by
  constructor
  · intro h
    have hc : Closes [] operations := closes_of_nests h
    cases hc with
    | done body => exact ⟨body, rfl⟩
  · rintro ⟨body, rfl⟩
    exact body.nests_operations []

/-! ## What the machine does -/

/-- the open blocks, innermost first, each with whether it has been turned -/
def Branches.turned (branches : Branches) : List Bool :=
  branches.blocks.map Block.turned

theorem Branches.turned_eq_nil_iff {branches : Branches} : branches.turned = [] ↔ branches.count = 0 := by
  rw [turned, count, List.map_eq_nil_iff, List.length_eq_zero_iff]

/-- the failures for the balance of the blocks -/
def balanceKinds : List FailureKind :=
  [.unbalancedIf, .unbalancedElse, .unbalancedEndif]

theorem Branches.nest_turned_turn? (branches : Branches) :
    FlowOp.turnBlock.nest branches.turned = branches.turn?.map turned := by
  rcases branches with ⟨_ | ⟨⟨taken, _ | _⟩, outer⟩, skipped⟩ <;> rfl

theorem Branches.nest_turned_pop? (branches : Branches) :
    FlowOp.closeBlock.nest branches.turned = branches.pop?.map turned := by
  rcases branches with ⟨_ | ⟨block, outer⟩, skipped⟩ <;> rfl

section

variable {s s' : State} {action : Action} {failure : Failure}

theorem FlowOp.nest_of_apply_eq_ok {flow : FlowOp} (h : flow.apply s = .ok (s', action)) :
    flow.nest s.branches.turned = some s'.branches.turned := by
  cases flow with
  | openBlock negated =>
    simp only [apply] at h
    split at h
    · obtain ⟨⟨item, popped⟩, hp, h⟩ := exists_of_bind_eq_ok h
      obtain ⟨rest, -, rfl⟩ := State.popMain_eq_ok hp
      cases h
      rfl
    · cases h
      rfl
  | turnBlock =>
    obtain ⟨after, ha, h⟩ := exists_of_map_eq_ok h
    obtain ⟨branches, ht, rfl⟩ := State.turnBlock_eq_ok ha
    cases h
    rw [Branches.nest_turned_turn?, ht]
    rfl
  | closeBlock =>
    obtain ⟨after, ha, h⟩ := exists_of_map_eq_ok h
    obtain ⟨branches, hp, rfl⟩ := State.exitBlock_eq_ok ha
    cases h
    rw [Branches.nest_turned_pop?, hp]
    rfl

theorem FlowOp.nest_of_apply_eq_error {flow : FlowOp} (h : flow.apply s = .error failure)
    (hk : failure.kind ∈ balanceKinds) : flow.nest s.branches.turned = none := by
  cases flow with
  | openBlock negated =>
    have hu : failure.kind ∈ [FailureKind.stackUnderflow] := fails_apply s (.openBlock negated) failure h
    rw [List.mem_singleton.1 hu] at hk
    exact absurd hk (by decide)
  | turnBlock =>
    rw [Branches.nest_turned_turn?]
    cases ht : s.branches.turn? with
    | none => rfl
    | some branches =>
      simp only [apply, State.turnBlock, ht] at h
      cases h
  | closeBlock =>
    rw [Branches.nest_turned_pop?]
    cases hp : s.branches.pop? with
    | none => rfl
    | some branches =>
      simp only [apply, State.exitBlock, hp] at h
      cases h

theorem Instruction.branches_of_apply {ctx : Context} {instruction : Instruction} (hf : instruction.isFlow = false)
    (h : instruction.apply ctx s = .ok (s', action)) : s'.branches = s.branches := by
  cases apply_eq_ok_iff.1 h with
  | flow _ => cases hf
  | stack _ | toAlt _ | fromAlt _ | codeSeparator | signature _ _ => rfl

theorem Operation.nest_code {op : Opcode} {instruction : Instruction} (hi : op.instruction? = some instruction)
    (blocks : List Bool) :
    (code op).nest blocks =
      match instruction with
      | .flow flow => flow.nest blocks
      | _ => some blocks := by
  cases instruction <;> simp only [nest, flow?, hi]

/-- an operation that succeeds nests, executed or skipped -/
theorem execute_nest {ctx : Context} {operation : Operation} (h : execute ctx operation s = (s', .ok action)) :
    operation.nest s.branches.turned = some s'.branches.turned := by
  rcases execute_eq_ok h with ⟨rfl, hk⟩ | ⟨hc, -⟩
  · cases hk with
    | push data hx => rfl
    | @code op hx hd hi =>
      cases ho : op.instruction? with
      | none => simp only [Operation.nest, Operation.flow?, ho]
      | some instruction =>
        rw [Operation.nest_code ho]
        cases instruction with
        | flow flow => cases hi _ ho
        | _ => rfl
  · cases hc with
    | push data hx => rfl
    | @code op instruction _ _ hd hi hx hr ha =>
      rw [Operation.nest_code hi]
      cases hf : instruction.isFlow with
      | true =>
        cases instruction with
        | flow flow => exact FlowOp.nest_of_apply_eq_ok ha
        | _ => cases hf
      | false =>
        rw [Instruction.branches_of_apply hf ha]
        cases instruction with
        | flow flow => cases hf
        | _ => rfl

/-- an operation that fails for the balance of the blocks may not stand there -/
theorem execute_refused {ctx : Context} {operation : Operation} (h : execute ctx operation s = (s', .error failure))
    (hk : failure.kind ∈ balanceKinds) : operation.nest s.branches.turned = none := by
  rcases execute_eq_error h with ⟨rfl, hr⟩ | ⟨action, -, rfl, -⟩
  · cases hr with
    | disabled hd => exact absurd hk (show FailureKind.disabledOpcode ∉ balanceKinds by decide)
    | unknown hi hx => exact absurd hk (show FailureKind.unknownOpcode ∉ balanceKinds by decide)
    | @unready op instruction failure hi hr =>
      have hready : ∀ kind ∈ [FailureKind.missingTransactionContext, .stackUnderflow], kind ∉ balanceKinds := by decide
      exact absurd hk (hready _ (instruction.fails_ready ctx s' failure hr))
    | @failed op instruction failure hi ha =>
      have hkind : failure.kind ∈ instruction.kinds := instruction.fails_apply ctx s' failure ha
      cases hf : instruction.isFlow with
      | false =>
        have hother : ∀ kind ∈ FailureKind.missingTransactionContext :: stackKinds, kind ∉ balanceKinds := by decide
        exact absurd hk (hother _ (Instruction.kinds_subset hf hkind))
      | true =>
        cases instruction with
        | flow flow =>
          rw [Operation.nest_code hi]
          exact FlowOp.nest_of_apply_eq_error ha hk
        | _ => cases hf
  · exact absurd hk (show FailureKind.scriptSizeExceeded ∉ balanceKinds by decide)

end

/-! ## Runs -/

/-- where a run stands in the nesting of its script -/
structure State.Nested (ctx : Context) (s : State) (ending? : Option Ending) : Prop where
  /-- the open blocks are those that the operations before leave open -/
  before : (∀ failure, ending? ≠ some (.failed failure)) →
    nests (ctx.program.operations.take s.pc) [] = some s.branches.turned
  complete : ending? = some .endOfScript → nests ctx.program.operations [] = some []
  refused : ∀ failure, ending? = some (.failed failure) → failure.kind ∈ balanceKinds →
    nests ctx.program.operations [] ≠ some []

theorem State.initial_nested (ctx : Context) : State.initial.Nested ctx none where
  before _ := rfl
  complete := nofun
  refused := nofun

/-- one step keeps the place in the nesting -/
theorem State.next_nested (ctx : Context) (s : State) (h : s.Nested ctx none) :
    (s.next ctx).1.Nested ctx (s.next ctx).2.ending? := by
  have hbefore : nests (ctx.program.operations.take s.pc) [] = some s.branches.turned := h.before nofun
  rcases State.next_cases ctx s with
    ⟨operation, s', action, hop, he, hn⟩ | ⟨operation, s', failure, hop, he, hn⟩ | ⟨hlen, hb, hn⟩ | ⟨hlen, hb, hn⟩
  · rw [hn]
    have hpc : s'.pc = s.pc := execute_pc_eq he
    refine ⟨fun _ => ?_, nofun, nofun⟩
    show nests (ctx.program.operations.take (s'.pc + 1)) [] = some s'.branches.turned
    rw [hpc, List.take_add_one, hop, nests_append, hbefore]
    show (operation.nest s.branches.turned).bind (nests []) = _
    rw [execute_nest he]
    rfl
  · rw [hn]
    refine ⟨fun hnot => absurd rfl (hnot failure), nofun, ?_⟩
    rintro _ ⟨⟩ hk
    obtain ⟨hlt, hget⟩ := List.getElem?_eq_some_iff.1 hop
    have hsplit : ctx.program.operations =
        ctx.program.operations.take s.pc ++ operation :: ctx.program.operations.drop (s.pc + 1) := by
      rw [← hget, ← List.drop_eq_getElem_cons hlt, List.take_append_drop]
    rw [hsplit, nests_append, hbefore, Option.bind_some, nests, execute_refused he hk]
    nofun
  · rw [List.take_of_length_le hlen] at hbefore
    rw [hn]
    refine ⟨fun _ => ?_, fun _ => ?_, nofun⟩
    · rw [List.take_of_length_le hlen, hbefore]
    · rw [hbefore, Branches.turned_eq_nil_iff.2 hb]
  · rw [List.take_of_length_le hlen] at hbefore
    rw [hn]
    refine ⟨fun hnot => absurd rfl (hnot _), nofun, fun _ _ _ hnil => ?_⟩
    rw [hbefore, Option.some.injEq] at hnil
    exact hb (Branches.turned_eq_nil_iff.1 hnil)

/-- **Balance is a matter of the script alone.** Whatever the spend and the data, the number of open blocks is that of
the script before the next operation; a run that comes to the end of the script is one of operations with their blocks
closed, and no run of these fails for the balance of its blocks. -/
theorem balance_of_script (script : Bytes) (spend : Option Spend) (strict : Bool) (calls : List Call)
    (program : Program) :
    let session := ((History.new script spend strict).calls calls).session
    session.run.script = .ok program →
      (∀ s, session.run.state? = some s → (∀ failure, session.run.ending? ≠ some (.failed failure)) →
        (s.branches.count : Int) =
          (program.operations.take s.pc).countP Operation.isOpener -
            (program.operations.take s.pc).count (.code .closer)) ∧
      (session.run.ending? = some .endOfScript → ∃ body : Body, body.operations = program.operations) ∧
      ((∃ body : Body, body.operations = program.operations) →
        ∀ failure, session.run.ending? = some (.failed failure) →
          failure.kind ≠ .unbalancedIf ∧ failure.kind ≠ .unbalancedElse ∧ failure.kind ≠ .unbalancedEndif) := by
  intro session hp
  have hreach : session.Has State.Nested :=
    History.state_invariant State.initial_nested State.next_nested script spend strict calls
  have hnested : ∀ s, session.run.state? = some s →
      s.Nested ⟨program, session.spend, session.strict⟩ session.run.ending? := by
    intro s hs
    obtain ⟨program', hp', hn⟩ := hreach s hs
    cases hp.symm.trans hp'
    exact hn
  have hended : ∀ ending, session.run.ending? = some ending →
      ∃ s : State, s.Nested ⟨program, session.spend, session.strict⟩ session.run.ending? := by
    intro ending hend
    obtain ⟨s, hs⟩ := History.state_of_ended script spend strict calls program hp (hend ▸ Option.some_ne_none ending)
    exact ⟨s, hnested s hs⟩
  refine ⟨?_, ?_, ?_⟩
  · intro s hs hrun
    have hbefore : nests (program.operations.take s.pc) [] = some s.branches.turned := (hnested s hs).before hrun
    have hlen := length_nests hbefore
    rw [Branches.turned, List.length_map, List.length_nil] at hlen
    rw [Branches.count]
    omega
  · intro hend
    obtain ⟨s, hn⟩ := hended _ hend
    exact (nests_eq_nil_iff program.operations).1 (hn.complete hend)
  · intro hbody failure hfail
    obtain ⟨s, hn⟩ := hended _ hfail
    have hnot : failure.kind ∉ balanceKinds :=
      fun hk => hn.refused failure hfail hk ((nests_eq_nil_iff program.operations).2 hbody)
    refine ⟨fun hk => hnot ?_, fun hk => hnot ?_, fun hk => hnot ?_⟩ <;> rw [hk] <;> decide

/-- a block of two parts, of which the second is skipped -/
theorem balance_of_script_choose :
    let session := ((History.new [0x51, 0x63, 0x52, 0x67, 0x53, 0x68] none false).calls [.finish]).session
    let program : Program :=
      ⟨[⟨0, [0x51], .code ⟨0x51⟩⟩, ⟨1, [0x63], .code ⟨0x63⟩⟩, ⟨2, [0x52], .code ⟨0x52⟩⟩, ⟨3, [0x67], .code ⟨0x67⟩⟩,
        ⟨4, [0x53], .code ⟨0x53⟩⟩, ⟨5, [0x68], .code ⟨0x68⟩⟩]⟩
    let s : State := ⟨[[2]], [], .none, 6, 0⟩
    session.run.script = .ok program ∧ session.run.state? = some s ∧ session.run.ending? = some .endOfScript ∧
      (s.branches.count : Int) =
        (program.operations.take s.pc).countP Operation.isOpener -
          (program.operations.take s.pc).count (.code .closer) ∧
      ∃ body : Body, body.operations = program.operations := by
  intro session program s
  have hp : session.run.script = .ok program := Run.script_of_program? (by decide +kernel)
  have hs : session.run.state? = some s := by decide +kernel
  have hend : session.run.ending? = some .endOfScript := by decide +kernel
  have hrun : ∀ failure, session.run.ending? ≠ some (.failed failure) := by
    intro failure
    rw [hend]
    nofun
  obtain ⟨hcount, hbody, -⟩ := balance_of_script _ none false [.finish] program hp
  exact ⟨hp, hs, hend, hcount s hs hrun, hbody hend⟩

end BitcoinScript
