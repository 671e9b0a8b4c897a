/-
What an operation comes to: the state that it leaves and what it did, or the failure it ends with.

* A disabled opcode fails wherever it stands, an unknown one only where it is executed.
* Inside a block that is not taken, only the instructions that open, turn and close blocks are looked at.
* An instruction that fails leaves the state as it was. The check of the stack sizes comes after the instruction, and
  the state that fails it is the one that is left.

The index of the next operation is not moved.
-/
import BitcoinScript.Machine.SignatureOp
import BitcoinScript.Machine.StackOp
import BitcoinScript.Machine.State
import BitcoinScript.Script.ScriptCode
import BitcoinScript.Transaction.SignatureCheck

namespace BitcoinScript

/-- what a run is about: the script, the spend that signatures are checked for, and whether numbers must be minimal -/
structure Context where
  program : Program
  spend : Option Spend
  strict : Bool

/-- opens, turns or closes a block -/
def FlowOp.apply (s : State) : FlowOp → Except Failure (State × Action)
  | .openBlock negated =>
    if s.executing then do
      let (item, s') ← s.popMain
      let value := Number.isTrue item
      let taken := value != negated
      return (s'.enterBlock taken, .opened item value taken)
    else .ok (s.enterBlock false, .openedInSkipped)
  | .turnBlock => s.turnBlock.map fun s' => (s', .turned s'.executing)
  | .closeBlock => s.exitBlock.map fun s' => (s', .closed s'.branches.count)

/-- opening, turning and closing blocks may take items off the main stack, and changes nothing else but the blocks -/
theorem FlowOp.apply_eq_ok {s s' : State} {action : Action} {op : FlowOp} (h : op.apply s = .ok (s', action)) :
    ∃ main branches, main <:+ s.main ∧ s' = { s with main, branches } := by
  cases op with
  | openBlock negated =>
    simp only [apply] at h
    split at h
    · obtain ⟨⟨item, popped⟩, hp, h⟩ := exists_of_bind_eq_ok h
      obtain ⟨rest, hm, rfl⟩ := State.popMain_eq_ok hp
      cases h
      exact ⟨rest, _, ⟨[item], hm.symm⟩, rfl⟩
    · cases h
      exact ⟨s.main, _, List.suffix_refl _, rfl⟩
  | turnBlock =>
    obtain ⟨turned, ht, h⟩ := exists_of_map_eq_ok h
    obtain ⟨branches, -, rfl⟩ := State.turnBlock_eq_ok ht
    cases h
    exact ⟨s.main, branches, List.suffix_refl _, rfl⟩
  | closeBlock =>
    obtain ⟨closed, hc, h⟩ := exists_of_map_eq_ok h
    obtain ⟨branches, -, rfl⟩ := State.exitBlock_eq_ok hc
    cases h
    exact ⟨s.main, branches, List.suffix_refl _, rfl⟩

/-- the verdict on a signature of the script from the start of the script code on -/
def Context.check (ctx : Context) (spend : Spend) (codeStart : Nat) (signatures : List Bytes) : Verdict :=
  fun signature key => spend.checkSignature signature key (ctx.program.scriptCode codeStart signatures)

namespace Instruction

/-- fails if the instruction is executed without what it needs -/
def ready (ctx : Context) (s : State) (instruction : Instruction) : Except Failure Unit :=
  if !s.executing then .ok ()
  else if instruction.needsTransaction && ctx.spend.isNone then .error .noTransaction
  else s.main.require instruction.depth

/-- carries out an instruction -/
def apply (ctx : Context) (s : State) : Instruction → Except Failure (State × Action)
  | .stack op => (op.apply ctx.strict s.main).map fun (main, action) => ({ s with main }, action)
  | .flow op => op.apply s
  | .toAlt => s.popMain.map fun (item, s') => (s'.pushAlt item, .movedToAlt item)
  | .fromAlt => s.popAlt.map fun (item, s') => (s'.pushMain item, .movedFromAlt item)
  | .codeSeparator =>
    let codeStart := ctx.program.offset (s.pc + 1)
    .ok ({ s with codeStart }, .movedCodeStart codeStart)
  | .signature op =>
    match ctx.spend with
    | none => .error .noTransaction
    | some spend =>
      (op.apply ctx.strict (ctx.check spend s.codeStart) s.main).map fun (main, action) => ({ s with main }, action)

/-- what an instruction that succeeds makes of the state -/
inductive Makes (ctx : Context) (s : State) : Instruction → State → Action → Prop where
  | stack {op : StackOp} {main : Stack} {action : Action} (h : op.apply ctx.strict s.main = .ok (main, action)) :
      Makes ctx s (.stack op) { s with main } action
  | flow {op : FlowOp} {s' : State} {action : Action} (h : op.apply s = .ok (s', action)) :
      Makes ctx s (.flow op) s' action
  | toAlt {item : Bytes} {rest : Stack} (h : s.main = item :: rest) :
      Makes ctx s .toAlt { s with main := rest, alt := item :: s.alt } (.movedToAlt item)
  | fromAlt {item : Bytes} {rest : Stack} (h : s.alt = item :: rest) :
      Makes ctx s .fromAlt { s with main := item :: s.main, alt := rest } (.movedFromAlt item)
  | codeSeparator :
      Makes ctx s .codeSeparator { s with codeStart := ctx.program.offset (s.pc + 1) }
        (.movedCodeStart (ctx.program.offset (s.pc + 1)))
  | signature {op : SignatureOp} {spend : Spend} {main : Stack} {action : Action} (hs : ctx.spend = some spend)
      (h : op.apply ctx.strict (ctx.check spend s.codeStart) s.main = .ok (main, action)) :
      Makes ctx s (.signature op) { s with main } action

theorem apply_eq_ok_iff {ctx : Context} {s s' : State} {instruction : Instruction} {action : Action} :
    instruction.apply ctx s = .ok (s', action) ↔ instruction.Makes ctx s s' action := by
  constructor
  · intro h
    cases instruction with
    | stack op =>
      obtain ⟨⟨main, a⟩, ha, h⟩ := exists_of_map_eq_ok h
      cases h
      exact .stack ha
    | flow op => exact .flow h
    | toAlt =>
      obtain ⟨⟨item, popped⟩, hp, h⟩ := exists_of_map_eq_ok h
      obtain ⟨rest, hm, rfl⟩ := State.popMain_eq_ok hp
      cases h
      exact .toAlt hm
    | fromAlt =>
      obtain ⟨⟨item, popped⟩, hp, h⟩ := exists_of_map_eq_ok h
      obtain ⟨rest, ha, rfl⟩ := State.popAlt_eq_ok hp
      cases h
      exact .fromAlt ha
    | codeSeparator =>
      cases h
      exact .codeSeparator
    | signature op =>
      simp only [apply] at h
      split at h
      · cases h
      · rename_i spend hs
        obtain ⟨⟨main, a⟩, ha, h⟩ := exists_of_map_eq_ok h
        cases h
        exact .signature hs ha
  · intro h
    cases h with
    | stack h =>
      rw [apply, h]
      rfl
    | flow h => exact h
    | toAlt h =>
      simp only [apply, State.popMain, h]
      rfl
    | fromAlt h =>
      simp only [apply, State.popAlt, h]
      rfl
    | codeSeparator => rfl
    | signature hs h =>
      simp only [apply, hs, h]
      rfl

end Instruction

/-- the state and the action, unless there are too many items -/
def State.sized (s : State) (action : Action) : State × Except Failure Action :=
  (s, s.checkSize.map fun _ => action)

/-- the end of an instruction: after a success the sizes are checked, and a failure is told with the name -/
def Opcode.conclude (op : Opcode) (s : State) : Except Failure (State × Action) → State × Except Failure Action
  | .ok (s', action) => s'.sized action
  | .error failure => (s, .error (.within op.name failure))

/-- runs one operation -/
def Operation.apply (ctx : Context) (s : State) : Operation → State × Except Failure Action
  | .push data => if s.executing then (s.pushMain data).sized (.pushed data) else (s, .ok (.skippedPush data.length))
  | .code op =>
    if op.isDisabled then (s, .error (.disabledOpcode op))
    else
      match op.instruction? with
      | none => if s.executing then (s, .error (.unknownOpcode op)) else (s, .ok (.skipped op))
      | some instruction =>
        if !s.executing && !instruction.isFlow then (s, .ok (.skipped op))
        else op.conclude s (do instruction.ready ctx s; instruction.apply ctx s)

end BitcoinScript
