/-
Running one operation. Execution is in place, and gives the state that is left, and what was done or what went wrong.
-/
import BitcoinScript.Machine.Atomic

namespace BitcoinScript

open Effect

/-- runs one operation -/
def execute (ctx : Context) (operation : Operation) (s : State) : State × Except Failure Action :=
  match h : (operation.perform ctx).run s with
  | .ok action s' => (s', .ok action)
  | .error (.failure failure) s' => (s', .error failure)
  | .error .outOfRange _ => absurd h (operation.run_perform_ne ctx s _)

/-- execution in place comes to the meaning of the operation -/
theorem execute_eq_apply (ctx : Context) (operation : Operation) (s : State) :
    execute ctx operation s = operation.apply ctx s := by
  have hp : (operation.perform ctx).run s = ended (operation.apply ctx s) := operation.run_perform ctx s
  rw [execute]
  split
  · rename_i h
    exact (eq_of_ended_ok (hp.symm.trans h)).symm
  · rename_i h
    exact (eq_of_ended_error (hp.symm.trans h)).symm
  · rename_i s' h
    exact absurd h (operation.run_perform_ne ctx s s')

/-! ## The index of the next operation stays -/

theorem Instruction.apply_pc {ctx : Context} {s s' : State} {action : Action} {instruction : Instruction}
    (h : instruction.apply ctx s = .ok (s', action)) : s'.pc = s.pc := by
  cases apply_eq_ok_iff.1 h with
  | flow h =>
    obtain ⟨main, branches, -, rfl⟩ := FlowOp.apply_eq_ok h
    rfl
  | stack _ | toAlt _ | fromAlt _ | codeSeparator | signature _ _ => rfl

/-- running an operation leaves the index of the next operation alone -/
theorem execute_pc (ctx : Context) (operation : Operation) (s : State) : (execute ctx operation s).1.pc = s.pc := by
  rw [execute_eq_apply]
  cases operation with
  | push data =>
    simp only [Operation.apply]
    split <;> rfl
  | code op =>
    simp only [Operation.apply]
    split
    · rfl
    · cases op.instruction? with
      | none => simp only; split <;> rfl
      | some instruction =>
        simp only
        split
        · rfl
        · cases hr : instruction.ready ctx s with
          | error e => rfl
          | ok u =>
            cases ha : instruction.apply ctx s with
            | error e => rfl
            | ok r => exact Instruction.apply_pc ha

theorem execute_pc_eq {ctx : Context} {operation : Operation} {s s' : State} {result : Except Failure Action}
    (h : execute ctx operation s = (s', result)) : s'.pc = s.pc := by
  rw [← execute_pc ctx operation s, h]

end BitcoinScript
