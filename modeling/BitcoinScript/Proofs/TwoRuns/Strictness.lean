/-
Minimal numbers. A run that asks for numbers in their minimal form is the run that does not ask for it, up to the first
operand that is not minimal. There it fails, and it fails for nothing else that the other does not fail for.

Results:
- `Stricter`: one result is the other, or the refusal of a number that is not minimal; the functions of the machine
  keep this from the reading of one number on.
- `strict_run_cut`: the strict run of a script beside the other.
-/
import BitcoinScript.Proofs.TwoRuns.Comparison

namespace BitcoinScript

/-! ## Refusing numbers -/

/-- the first result is the second, or it refuses a number that is not minimal -/
def Stricter {α : Type} (x y : Except Failure α) : Prop :=
  x = y ∨ ∃ bytes, x = .error (.paddedNumber bytes)

namespace Stricter

variable {α β : Type} {x y : Except Failure α}

theorem refl (x : Except Failure α) : Stricter x x := .inl rfl

theorem bind {f g : α → Except Failure β} (hx : Stricter x y) (hf : ∀ a, Stricter (f a) (g a)) :
    Stricter (x >>= f) (y >>= g) := by
  rcases hx with rfl | ⟨bytes, rfl⟩
  · cases x with
    | error failure => exact .refl _
    | ok a => exact hf a
  · exact .inr ⟨bytes, rfl⟩

theorem map (hx : Stricter x y) (f : α → β) : Stricter (x.map f) (y.map f) := by
  rcases hx with rfl | ⟨bytes, rfl⟩
  · exact .refl _
  · exact .inr ⟨bytes, rfl⟩

theorem ite {p : Prop} [Decidable p] {z w : Except Failure α} (hx : Stricter x y) (hz : Stricter z w) :
    Stricter (if p then x else z) (if p then y else w) := by
  split
  · exact hx
  · exact hz

end Stricter

theorem Number.stricter_read (bytes : Bytes) (limit : Nat) :
    Stricter (read bytes limit true) (read bytes limit false) := by
  unfold read
  refine .ite (.refl _) ?_
  cases hm : isMinimal bytes with
  | true => exact .refl _
  | false => exact .inr ⟨bytes, rfl⟩

/-! ## Instructions -/

/-- an instruction on the main stack reads its operands in one order, and what it does depends on their values alone -/
theorem StackOp.stricter_apply (op : StackOp) (main : Stack) :
    Stricter (op.apply true main) (op.apply false main) := by
  have hread : ∀ item, Stricter (operand true item) (operand false item) :=
    fun item => Number.stricter_read item operandLimit
  cases op with
  | nop | ignored _ | pushNumber _ | unspendable | pushDepth | shuffle _ => exact .refl _
  | verify | dupIfTrue | pushSize | hash _ => cases main <;> exact .refl _
  | equal verify => obtain _ | ⟨b, _ | ⟨a, rest⟩⟩ := main <;> cases verify <;> exact .refl _
  | fetch keep =>
    cases main with
    | nil => exact .refl _
    | cons item rest => exact .bind (hread item) fun index => .refl _
  | unary op =>
    cases main with
    | nil => exact .refl _
    | cons item rest => exact .bind (hread item) fun x => .refl _
  | binary op =>
    obtain _ | ⟨b, _ | ⟨a, rest⟩⟩ := main
    · exact .refl _
    · exact .refl _
    · exact .bind (hread a) fun x => .bind (hread b) fun y => .refl _
  | equalNumbersVerify =>
    obtain _ | ⟨b, _ | ⟨a, rest⟩⟩ := main
    · exact .refl _
    · exact .refl _
    · exact .bind (hread a) fun x => .bind (hread b) fun y => .refl _
  | within =>
    obtain _ | ⟨c, _ | ⟨b, _ | ⟨a, rest⟩⟩⟩ := main
    · exact .refl _
    · exact .refl _
    · exact .refl _
    · exact .bind (hread a) fun x => .bind (hread b) fun low => .bind (hread c) fun high => .refl _

theorem ManyOperands.stricter_take (main : Stack) : Stricter (take true main) (take false main) := by
  cases main with
  | nil => exact .refl _
  | cons keyCount below =>
    refine .bind (Number.stricter_read keyCount operandLimit) fun n => .ite (.refl _) ?_
    split
    · exact .refl _
    · exact .bind (Number.stricter_read _ operandLimit) fun m => .refl _

theorem SignatureOp.stricter_apply (check : List Bytes → Verdict) (op : SignatureOp) (main : Stack) :
    Stricter (op.apply true check main) (op.apply false check main) := by
  cases op with
  | one verify => exact .refl _
  | many verify => exact .bind (ManyOperands.stricter_take main) fun o => .refl _

theorem Instruction.stricter_apply (program : Program) (spend : Option Spend) (instruction : Instruction) (s : State) :
    Stricter (instruction.apply ⟨program, spend, true⟩ s) (instruction.apply ⟨program, spend, false⟩ s) := by
  cases instruction with
  | stack op => exact .map (op.stricter_apply s.main) _
  | flow _ | toAlt | fromAlt | codeSeparator => exact .refl _
  | signature op =>
    cases spend with
    | none => exact .refl _
    | some spend => exact .map (op.stricter_apply _ s.main) _

/-! ## Operations and runs -/

/-- an operation does the same whether or not numbers must be minimal, or it fails for a number that is not -/
theorem execute_stricter (program : Program) (spend : Option Spend) (operation : Operation) (s : State) :
    execute ⟨program, spend, true⟩ operation s = execute ⟨program, spend, false⟩ operation s ∨
      ∃ failure, (execute ⟨program, spend, true⟩ operation s).2 = .error failure ∧
        failure.kind = .numericOverflow := by
  rcases execute_context operation s with hsame | ⟨op, instruction, rfl, hi, hx⟩
  · exact .inl (hsame _ _)
  · rw [execute_code_eq hi hx, execute_code_eq hi hx]
    have hcarried : Stricter
        (do instruction.ready ⟨program, spend, true⟩ s; instruction.apply ⟨program, spend, true⟩ s)
        (do instruction.ready ⟨program, spend, false⟩ s; instruction.apply ⟨program, spend, false⟩ s) :=
      .bind (.refl _) fun _ => instruction.stricter_apply program spend s
    rcases hcarried with hsame | ⟨bytes, hrefused⟩
    · rw [hsame]
      exact .inl rfl
    · rw [hrefused]
      exact .inr ⟨.within op.name (.paddedNumber bytes), rfl, rfl⟩

/-- **Asking for minimal numbers only refuses some.** Whatever the script and the spend, the steps of the run that asks
for them are the first steps of the run that does not. If it ends with anything but a failure to read a number, both
runs have the same steps and the same ending, and leave the same state. -/
theorem strict_run_cut (script : Bytes) (spend : Option Spend) :
    let strict := (Session.new script spend true).trace
    let lax := (Session.new script spend false).trace
    strict.2.1 <+: lax.2.1 ∧
      ((∀ failure, strict.2.2 = .failed failure → failure.kind ≠ .numericOverflow) →
        strict.2 = lax.2 ∧ strict.1.run.state? = lax.1.run.state?) :=
  Session.trace_compare (fun program operation s => execute_stricter program spend operation s) script

end BitcoinScript
