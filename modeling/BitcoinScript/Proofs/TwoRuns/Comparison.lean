/-
Two runs of the same operations in two contexts, side by side. As long as each operation does the same in both contexts,
the runs are the same. If the first context can also refuse an operation that the second carries out, for a reason of a
kind that is known, the first run may end there, and the second then begins with all that came before.

Results:
- `execute_congr`: what an operation reads of its context: whether numbers must be minimal, and where the next operation
  begins; anything else only if it checks signatures.
- `Reference.run_compare`: two runs, from what single operations do in the two contexts.
- `Session.trace_compare`: the same for two sessions on one script.
-/
import BitcoinScript.Proofs.Operation
import BitcoinScript.Proofs.Session.Reference

namespace BitcoinScript

/-! ## Operations that check signatures -/

/-- the opcodes that check signatures -/
def Opcode.checkers : List Opcode :=
  [⟨0xac⟩, ⟨0xad⟩, ⟨0xae⟩, ⟨0xaf⟩]

/-- whether an operation checks signatures where it is executed -/
def Operation.checksSignatures : Operation → Bool
  | .push _ => false
  | .code op => Opcode.checkers.contains op

theorem Operation.checksSignatures_eq {op : Opcode} {instruction : Instruction}
    (h : op.instruction? = some instruction) : (code op).checksSignatures = instruction.needsTransaction := by
  have htable : ∀ entry ∈ instructionTable, (code ⟨entry.1⟩).checksSignatures = entry.2.needsTransaction := by
    decide
  exact htable _ (Opcode.mem_of_instruction? h)

theorem Operation.exists_instruction_of_checksSignatures {op : Opcode} (h : (code op).checksSignatures) :
    ∃ instruction, op.instruction? = some instruction ∧ instruction.needsTransaction := by
  have hcheckers : ∀ op ∈ Opcode.checkers, op.instruction?.any Instruction.needsTransaction := by
    decide
  have hany : op.instruction?.any Instruction.needsTransaction := hcheckers op (List.contains_iff_mem.1 h)
  rw [Option.any_eq_true] at hany
  exact hany

theorem Instruction.needsTransaction_of_isFlow {instruction : Instruction} (h : instruction.isFlow) :
    instruction.needsTransaction = false := by
  cases instruction with
  | flow op => rfl
  | stack _ | toAlt | fromAlt | codeSeparator | signature _ => cases h

/-! ## One operation in two contexts -/

section

variable {ctx ctx' : Context} {operation : Operation} {s : State}

/-- the context matters only to an opcode whose instruction is looked at -/
theorem execute_context (operation : Operation) (s : State) :
    (∀ ctx ctx', execute ctx operation s = execute ctx' operation s) ∨
      ∃ op instruction, operation = .code op ∧ op.instruction? = some instruction ∧
        (s.executing || instruction.isFlow) := by
  cases operation with
  | push data => exact .inl fun ctx ctx' => by rw [execute_eq_apply, execute_eq_apply]; rfl
  | code op =>
    cases hi : op.instruction? with
    | none =>
      refine .inl fun ctx ctx' => ?_
      rw [execute_eq_apply, execute_eq_apply]
      simp only [Operation.apply, hi]
    | some instruction =>
      cases hx : s.executing || instruction.isFlow with
      | true => exact .inr ⟨op, instruction, rfl, hi, hx⟩
      | false =>
        refine .inl fun ctx ctx' => ?_
        rw [execute_eq_apply, execute_eq_apply]
        simp only [Operation.apply, hi, ← Bool.not_or, hx, Bool.not_false, if_true]

theorem Instruction.apply_congr {instruction : Instruction} (hstrict : ctx.strict = ctx'.strict)
    (hoffset : ctx.program.offset (s.pc + 1) = ctx'.program.offset (s.pc + 1))
    (hneeds : instruction.needsTransaction = false) : instruction.apply ctx s = instruction.apply ctx' s := by
  cases instruction with
  | stack op => simp only [apply, hstrict]
  | codeSeparator => simp only [apply, hoffset]
  | signature op => cases hneeds
  | flow _ | toAlt | fromAlt => rfl

theorem Instruction.ready_congr {instruction : Instruction} (ctx ctx' : Context)
    (hneeds : instruction.needsTransaction = false) : instruction.ready ctx s = instruction.ready ctx' s := by
  simp only [ready, hneeds, Bool.false_and]

/-- an operation reads two things of its context, if it does not check signatures or is only skipped -/
theorem execute_congr (hstrict : ctx.strict = ctx'.strict)
    (hoffset : ctx.program.offset (s.pc + 1) = ctx'.program.offset (s.pc + 1))
    (hchecks : s.executing → operation.checksSignatures = false) :
    execute ctx operation s = execute ctx' operation s := by
  rcases execute_context operation s with hsame | ⟨op, instruction, rfl, hi, hx⟩
  · exact hsame ctx ctx'
  · have hneeds : instruction.needsTransaction = false := by
      cases hex : s.executing with
      | true => rw [← Operation.checksSignatures_eq hi, hchecks hex]
      | false =>
        rw [hex, Bool.false_or] at hx
        exact Instruction.needsTransaction_of_isFlow hx
    rw [execute_code_eq hi hx, execute_code_eq hi hx, Instruction.ready_congr ctx ctx' hneeds,
      Instruction.apply_congr hstrict hoffset hneeds]

end

/-! ## Two runs -/

/-- if each operation does the same in both contexts, or the first refuses it for a reason of kind `P`, then so do the
runs: they are the same, or the first ends for such a reason and the second begins with the steps of the first. The
induction is on the operations; what carries it is that both runs stand at one state until then -/
theorem Reference.run_compare {P : Failure → Prop} (ctx ctx' : Context) {operations : List Operation} (s : State)
    (h : ∀ k operation t, operations[k]? = some operation → t.pc = s.pc + k →
      ctx.program.name t.pc = ctx'.program.name t.pc ∧
        (execute ctx operation t = execute ctx' operation t ∨
          ∃ failure, (execute ctx operation t).2 = .error failure ∧ P failure)) :
    run ctx s.pc operations s = run ctx' s.pc operations s ∨
      (run ctx s.pc operations s).steps <+: (run ctx' s.pc operations s).steps ∧
        ∃ failure, (run ctx s.pc operations s).ending = .failed failure ∧ P failure := by
  induction operations generalizing s with
  | nil => exact .inl rfl
  | cons operation operations ih =>
    obtain ⟨hname, hsame | ⟨failure, hf, hp⟩⟩ := h 0 operation s rfl rfl
    · cases he' : execute ctx' operation s with
      | mk s' result =>
        have he : execute ctx operation s = (s', result) := hsame.trans he'
        cases result with
        | error failure =>
          rw [run_cons_of_error s.pc _ he, run_cons_of_error s.pc _ he']
          exact .inl rfl
        | ok action =>
          have hpc : s'.advance.pc = s.pc + 1 := congrArg (· + 1) (execute_pc_eq he)
          have hlater := ih s'.advance fun k operation t hk ht => h (k + 1) operation t hk (by omega)
          rw [hpc] at hlater
          rw [run_cons_of_ok s.pc _ he, run_cons_of_ok s.pc _ he', hname]
          rcases hlater with hlater | ⟨hsteps, hending⟩
          · rw [hlater]
            exact .inl rfl
          · exact .inr ⟨List.cons_prefix_cons.2 ⟨rfl, hsteps⟩, hending⟩
    · cases he : execute ctx operation s with
      | mk s' result =>
        rw [he] at hf
        cases hf
        rw [run_cons_of_error s.pc _ he]
        exact .inr ⟨List.nil_prefix, failure, rfl, hp⟩

/-- a run as a session tells it that has gone through it -/
def Reference.trace (ref : Reference) (script : Except Failure Program) (spend : Option Spend) (strict : Bool) :
    Session × List Step × Ending :=
  (⟨strict, spend, ⟨script, ref.final?, ref.ending.phase, some ref.ending⟩⟩, ref.steps, ref.ending)

theorem Session.trace_new (script : Bytes) (spend : Option Spend) (strict : Bool) :
    (new script spend strict).trace =
      (Reference.of script spend strict).trace (Program.decode script) spend strict := by
  obtain ⟨-, ht, -⟩ := run_to_end (.inl rfl : (new script spend strict).Settled)
  rw [ht, last, rest_new]
  rfl

/-- two sessions on one script, if the first may refuse operations for reasons of kind `P` that the second does not
refuse: the second has all the steps of the first, and if the first does not end for such a reason, they are the same to
the end -/
theorem Session.trace_compare {P : Failure → Prop} {spend spend' : Option Spend} {strict strict' : Bool}
    (h : ∀ program operation s,
      execute ⟨program, spend, strict⟩ operation s = execute ⟨program, spend', strict'⟩ operation s ∨
        ∃ failure, (execute ⟨program, spend, strict⟩ operation s).2 = .error failure ∧ P failure)
    (script : Bytes) :
    let one := (Session.new script spend strict).trace
    let other := (Session.new script spend' strict').trace
    one.2.1 <+: other.2.1 ∧
      ((∀ failure, one.2.2 = .failed failure → ¬ P failure) →
        one.2 = other.2 ∧ one.1.run.state? = other.1.run.state?) := by
  intro one other
  have hone : one = _ := trace_new script spend strict
  have hother : other = _ := trace_new script spend' strict'
  have hcompare : Reference.of script spend strict = Reference.of script spend' strict' ∨
      (Reference.of script spend strict).steps <+: (Reference.of script spend' strict').steps ∧
        ∃ failure, (Reference.of script spend strict).ending = .failed failure ∧ P failure := by
    unfold Reference.of
    cases Program.decode script with
    | error failure => exact .inl rfl
    | ok program =>
      exact Reference.run_compare ⟨program, spend, strict⟩ ⟨program, spend', strict'⟩ .initial
        fun k operation t _ _ => ⟨rfl, h program operation t⟩
  show one.2.1 <+: other.2.1 ∧ _
  rw [hone, hother]
  rcases hcompare with hsame | ⟨hsteps, failure, hending, hp⟩
  · rw [hsame]
    exact ⟨List.prefix_refl _, fun _ => ⟨rfl, rfl⟩⟩
  · exact ⟨hsteps, fun hnot => absurd hp (hnot failure hending)⟩

end BitcoinScript
