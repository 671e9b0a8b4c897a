/-
Runs without a transaction. A run without a spend is the run with one, up to the first operation that checks signatures
and is executed. There it fails, however many items there are; where such an operation is only skipped, it does not.

Results:
- `execute_unbound_iff`: the one place where a missing transaction shows.
- `Reference.ends_unbound_iff`: so it shows in a run at the first operation that checks signatures and is executed.
- `unbound_run_cut`: the run of a script without a spend beside the run with one.
-/
import BitcoinScript.Proofs.Decoding.Acceptance
import BitcoinScript.Proofs.Session.Reach
import BitcoinScript.Proofs.TwoRuns.Comparison

namespace BitcoinScript

/-! ## One operation -/

section

variable {ctx : Context} {operation : Operation} {s : State}

theorem Instruction.ready_missing {instruction : Instruction} {failure : Failure}
    (h : instruction.ready ctx s = .error failure) (hk : failure.kind = .missingTransactionContext) :
    ctx.spend = none ∧ s.executing ∧ instruction.needsTransaction := by
  unfold ready at h
  split at h
  · cases h
  · rename_i hx
    split at h
    · rename_i hneeds
      obtain ⟨hneeds, hnone⟩ := Bool.and_eq_true_iff.1 hneeds
      rw [Bool.not_eq_true, Bool.not_eq_false'] at hx
      exact ⟨Option.isNone_iff_eq_none.1 hnone, hx, hneeds⟩
    · unfold Stack.require at h
      split at h <;> cases h
      cases hk

theorem Instruction.apply_missing {instruction : Instruction} {failure : Failure}
    (h : instruction.apply ctx s = .error failure) (hk : failure.kind = .missingTransactionContext) :
    ctx.spend = none ∧ instruction.needsTransaction := by
  have hstack : FailureKind.missingTransactionContext ∉ stackKinds := by
    decide
  have hkind : failure.kind ∈ instruction.kinds := instruction.fails_apply ctx s failure h
  rw [hk] at hkind
  cases instruction with
  | signature op =>
    refine ⟨?_, rfl⟩
    cases hspend : ctx.spend with
    | none => rfl
    | some spend =>
      have hfails : Fails stackKinds (Instruction.apply ctx s (.signature op)) := by
        simp only [apply, hspend]
        exact .map (op.fails_apply ctx.strict (ctx.fails_check spend s.codeStart) s.main) _
      exact absurd (hk ▸ hfails failure h) hstack
  | flow op => rcases op with _ | _ | _ <;> cases List.mem_singleton.1 hkind
  | stack _ | toAlt | fromAlt | codeSeparator => exact absurd hkind hstack

/-- a transaction is missing exactly where an operation that checks signatures is executed without one, whatever lies on
the stacks -/
theorem execute_unbound_iff (ctx : Context) (operation : Operation) (s : State) :
    (∃ failure, (execute ctx operation s).2 = .error failure ∧ failure.kind = .missingTransactionContext) ↔
      ctx.spend = none ∧ s.executing ∧ operation.checksSignatures := by
  constructor
  · rintro ⟨failure, hf, hk⟩
    rcases execute_cases ctx operation s with ⟨action, -, he⟩ | ⟨failure', hr, he⟩ | ⟨s', action, -, he⟩
    · rw [he] at hf
      cases hf
    · rw [he] at hf
      cases hf
      cases hr with
      | disabled _ | unknown _ _ => cases hk
      | unready hi hr =>
        rw [Operation.checksSignatures_eq hi]
        exact Instruction.ready_missing hr hk
      | @failed op instruction failure hi ha =>
        obtain ⟨hnone, hneeds⟩ := Instruction.apply_missing ha hk
        rw [Operation.checksSignatures_eq hi]
        refine ⟨hnone, ?_, hneeds⟩
        -- where it is skipped it does not fail
        cases hx : s.executing with
        | true => rfl
        | false =>
          have hskipped : (Operation.code op).Skipped s (.skipped op) := by
            refine .code hx (Opcode.isDisabled_of_instruction? hi) fun other ho => ?_
            cases hi.symm.trans ho
            rw [← Bool.not_eq_true]
            intro hf
            rw [Instruction.needsTransaction_of_isFlow hf] at hneeds
            cases hneeds
          cases (hskipped.execute_eq ctx).symm.trans he
    · rw [he] at hf
      obtain ⟨-, rfl, -⟩ := State.sized_eq_error (Prod.ext rfl hf : s'.sized action = (_, .error failure))
      cases hk
  · rintro ⟨hnone, hx, hchecks⟩
    cases operation with
    | push data => cases hchecks
    | code op =>
      obtain ⟨instruction, hi, hneeds⟩ := Operation.exists_instruction_of_checksSignatures hchecks
      have hready : instruction.ready ctx s = .error .noTransaction := by
        simp only [Instruction.ready, hx, hneeds, hnone, Bool.not_true, Bool.false_eq_true, if_false,
          Option.isNone_none, Bool.and_self, if_true]
      refine ⟨.within op.name .noTransaction, ?_, rfl⟩
      rw [execute_code_eq hi (by rw [hx, Bool.true_or]), hready]
      rfl

/-- an operation does the same with a spend and without one, or one is missing -/
theorem execute_unbound (program : Program) (spend : Spend) (strict : Bool) (operation : Operation) (s : State) :
    execute ⟨program, none, strict⟩ operation s = execute ⟨program, some spend, strict⟩ operation s ∨
      ∃ failure, (execute ⟨program, none, strict⟩ operation s).2 = .error failure ∧
        failure.kind = .missingTransactionContext := by
  by_cases hchecks : s.executing ∧ operation.checksSignatures
  · exact .inr ((execute_unbound_iff _ operation s).2 ⟨rfl, hchecks⟩)
  · refine .inl (execute_congr rfl rfl fun hx => ?_)
    rw [← Bool.not_eq_true]
    exact fun hc => hchecks ⟨hx, hc⟩

end

/-- the run of a script without a spend ends for want of a transaction where it comes to an executed check of
signatures, and nowhere else -/
theorem Reference.ends_unbound_iff (script : Bytes) (strict : Bool) :
    (∃ failure, (of script none strict).ending = .failed failure ∧ failure.kind = .missingTransactionContext) ↔
      ∃ program n s operation, Program.decode script = .ok program ∧
        (⟨program, none, strict⟩ : Context).reach n = some s ∧ program.operations[n]? = some operation ∧
        s.executing ∧ operation.checksSignatures := by
  have hclosed : ∀ failure : Failure, failure.kind = .missingTransactionContext → failure.kind ≠ .unbalancedIf := by
    intro failure hk
    rw [hk]
    nofun
  rw [of]
  constructor
  · rintro ⟨failure, hfailed, hk⟩
    cases hd : Program.decode script with
    | error failure' =>
      rw [hd] at hfailed
      cases hfailed
      rcases Program.kind_of_decode_error hd with hk' | hk' <;> cases hk.symm.trans hk'
    | ok program =>
      rw [hd] at hfailed
      obtain ⟨n, s, operation, hreach, hop, hf⟩ :=
        (Context.failed_iff ⟨program, none, strict⟩ (hclosed failure hk)).1 hfailed
      obtain ⟨-, hx, hchecks⟩ := (execute_unbound_iff _ operation s).1 ⟨failure, hf, hk⟩
      exact ⟨program, n, s, operation, rfl, hreach, hop, hx, hchecks⟩
  · rintro ⟨program, n, s, operation, hd, hreach, hop, hx, hchecks⟩
    obtain ⟨failure, hf, hk⟩ := (execute_unbound_iff ⟨program, none, strict⟩ operation s).2 ⟨rfl, hx, hchecks⟩
    rw [hd]
    exact ⟨failure, (Context.failed_iff _ (hclosed failure hk)).2 ⟨n, s, operation, hreach, hop, hf⟩, hk⟩

/-- **A transaction matters only where signatures are checked.** Whatever the script, the spend and the form of numbers,
the steps of the run without a spend are the first steps of the run with it. If it does not end for want of a
transaction, both runs have the same steps and the same ending, and leave the same state. And it ends for want of a
transaction if and only if it comes to an operation that checks signatures in a state where operations are executed. -/
theorem unbound_run_cut (script : Bytes) (spend : Spend) (strict : Bool) :
    let unbound := (Session.new script none strict).trace
    let bound := (Session.new script (some spend) strict).trace
    unbound.2.1 <+: bound.2.1 ∧
      ((∀ failure, unbound.2.2 = .failed failure → failure.kind ≠ .missingTransactionContext) →
        unbound.2 = bound.2 ∧ unbound.1.run.state? = bound.1.run.state?) ∧
      ((∃ failure, unbound.2.2 = .failed failure ∧ failure.kind = .missingTransactionContext) ↔
        ∃ program n s operation, Program.decode script = .ok program ∧
          (⟨program, none, strict⟩ : Context).reach n = some s ∧ program.operations[n]? = some operation ∧
          s.executing ∧ operation.checksSignatures) := by
  intro unbound bound
  obtain ⟨hsteps, hsame⟩ := Session.trace_compare
    (fun program operation s => execute_unbound program spend strict operation s) script
  have hending : unbound.2.2 = (Reference.of script none strict).ending :=
    congrArg (·.2.2) (Session.trace_new script none strict)
  refine ⟨hsteps, hsame, ?_⟩
  rw [hending]
  exact Reference.ends_unbound_iff script strict

end BitcoinScript
