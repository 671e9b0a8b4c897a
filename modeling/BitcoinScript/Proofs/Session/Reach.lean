/-
Where a run comes to. It comes to the state before each operation that it runs. Operations that others follow either
end the run at one of them, and then it does not matter what follows, or the run comes through them to a state, and
then what follows is run from that state. After any calls, a session stands at such a state, or where the step from one
ended it.

Results:
- `Operation.Refused.kind_mem`: the kinds of failure for which operations are refused.
- `Context.reach_induction`: what every step that continues keeps, holds wherever the run comes to.
- `Context.run_append`: the two ways of a run.
- `Context.failed_iff`: a run fails for anything but open blocks if and only if it comes to an operation that fails.
- `History.stands`: where a session stands after any calls.
-/
import BitcoinScript.Proofs.FailureKind
import BitcoinScript.Proofs.ScriptCode.Separator

namespace BitcoinScript

/-- the kinds of failure for which an operation is refused -/
def refusalKinds : List FailureKind :=
  [.disabledOpcode, .unknownOpcode, .unbalancedElse, .unbalancedEndif, .missingTransactionContext, .stackUnderflow,
    .numericOverflow, .verifyFailed]

theorem Instruction.kinds_subset_refusalKinds (instruction : Instruction) : instruction.kinds ⊆ refusalKinds := by
  have hother : .missingTransactionContext :: stackKinds ⊆ refusalKinds := by decide
  cases instruction with
  | flow op =>
    cases op with
    | openBlock negated => exact show [FailureKind.stackUnderflow] ⊆ refusalKinds by decide
    | turnBlock => exact show [FailureKind.unbalancedElse] ⊆ refusalKinds by decide
    | closeBlock => exact show [FailureKind.unbalancedEndif] ⊆ refusalKinds by decide
  | signature op => exact List.Subset.trans (kinds_subset rfl) hother
  | stack _ | toAlt | fromAlt | codeSeparator => exact List.Subset.trans (kinds_subset rfl) hother

theorem Operation.Refused.kind_mem {ctx : Context} {operation : Operation} {s : State} {failure : Failure}
    (h : operation.Refused ctx s failure) : failure.kind ∈ refusalKinds := by
  cases h with
  | disabled _ => exact show FailureKind.disabledOpcode ∈ refusalKinds by decide
  | unknown _ _ => exact show FailureKind.unknownOpcode ∈ refusalKinds by decide
  | @unready _ instruction failure _ hr =>
    have hsub : [FailureKind.missingTransactionContext, .stackUnderflow] ⊆ refusalKinds := by decide
    exact hsub (instruction.fails_ready ctx s failure hr)
  | @failed _ instruction failure _ ha =>
    exact instruction.kinds_subset_refusalKinds (instruction.fails_apply ctx s failure ha)

theorem execute_kind_ne_unbalancedIf {ctx : Context} {operation : Operation} {s s' : State} {failure : Failure}
    (h : execute ctx operation s = (s', .error failure)) : failure.kind ≠ .unbalancedIf := by
  rcases execute_eq_error h with ⟨-, hr⟩ | ⟨action, -, rfl, -⟩
  · have hnot : FailureKind.unbalancedIf ∉ refusalKinds := by decide
    exact fun hk => hnot (hk ▸ hr.kind_mem)
  · nofun

theorem Reference.kind_of_run_nil {ctx : Context} {i : Nat} {s : State} {failure : Failure}
    (h : (run ctx i [] s).ending = .failed failure) : failure.kind = .unbalancedIf := by
  rw [run] at h
  split at h <;> cases h
  rfl

namespace Context

variable {ctx : Context} {n : Nat} {s : State}

theorem exists_of_reach_succ (h : ctx.reach (n + 1) = some s) :
    ∃ t step, ctx.reach n = some t ∧ t.next ctx = (s, .continued step) := by
  obtain ⟨t, ht, h⟩ := Option.bind_eq_some_iff.1 h
  split at h
  · rename_i s' step hn
    cases h
    exact ⟨t, step, ht, hn⟩
  · cases h

/-- the run goes on from the state before an operation as the run from there does -/
theorem run_of_reach (h : ctx.reach n = some s) :
    s.pc = n ∧ ∃ before, Reference.run ctx 0 ctx.program.operations .initial =
      let rest := Reference.run ctx n (ctx.program.operations.drop n) s
      { rest with steps := before ++ rest.steps } := by
  induction n generalizing s with
  | zero =>
    cases h
    exact ⟨rfl, [], rfl⟩
  | succ n ih =>
    obtain ⟨t, step, ht, hn⟩ := exists_of_reach_succ h
    obtain ⟨rfl, before, hrun⟩ := ih ht
    have hpc : s.pc = t.pc + 1 := (State.next_continued hn).2
    refine ⟨hpc, before ++ [step], ?_⟩
    rw [hrun, State.run_of_next_continued hn, hpc]
    simp only [List.append_assoc, List.singleton_append]

/-- what a run begins with, and every step that continues from where it comes to keeps, holds wherever it comes to -/
theorem reach_induction {P : State → Prop} (hinit : P .initial)
    (hnext : ∀ s s' step, ctx.reach s.pc = some s → P s → s.next ctx = (s', .continued step) → P s')
    (h : ctx.reach n = some s) : P s := by
  induction n generalizing s with
  | zero =>
    cases h
    exact hinit
  | succ n ih =>
    obtain ⟨t, step, ht, hn⟩ := exists_of_reach_succ h
    have hpc : t.pc = n := (run_of_reach ht).1
    exact hnext t s step (hpc.symm ▸ ht) (ih ht) hn

theorem pc_le_of_reach (h : ctx.reach n = some s) : s.pc ≤ ctx.program.length := by
  refine reach_induction (P := fun s => s.pc ≤ ctx.program.length) (Nat.zero_le _) ?_ h
  intro t t' step _ _ hn
  obtain ⟨hlt, hpc⟩ := State.next_continued hn
  omega

theorem items_le_of_reach (h : ctx.reach n = some s) : s.items ≤ stackLimit := by
  refine reach_induction (P := fun s => s.items ≤ stackLimit) (Nat.zero_le _) ?_ h
  intro t t' step _ ht hn
  have hlimited : (t.next ctx).1.Limited (t.next ctx).2.ending? := State.next_limited ctx t (.inl ⟨ht, nofun⟩)
  rw [hn] at hlimited
  exact hlimited.items_le

/-- operations that others may follow end the run at one of them, or the run comes through them. The induction is on
these operations; what carries it is that the run has come to the state it stands at -/
theorem run_append (ctx : Context) {operations : List Operation} (s : State)
    (hops : operations <+: ctx.program.operations.drop s.pc) (hreach : ctx.reach s.pc = some s) :
    (∃ (steps : List Step) (t t' : State) (operation : Operation) (failure : Failure),
        operations[steps.length]? = some operation ∧ ctx.reach (s.pc + steps.length) = some t ∧
          execute ctx operation t = (t', .error failure) ∧
          ∀ more, Reference.run ctx s.pc (operations ++ more) s = ⟨steps, .failed failure, some t'⟩) ∨
      ∃ (steps : List Step) (t : State), steps.length = operations.length ∧ t.pc = s.pc + operations.length ∧
        ctx.reach t.pc = some t ∧
          ∀ more, Reference.run ctx s.pc (operations ++ more) s =
            let rest := Reference.run ctx t.pc more t
            { rest with steps := steps ++ rest.steps } := by
  induction operations generalizing s with
  | nil => exact .inr ⟨[], s, rfl, rfl, hreach, fun more => rfl⟩
  | cons operation operations ih =>
    obtain ⟨later, hlater⟩ := hops
    have hop : ctx.program.operations[s.pc]? = some operation := by
      rw [← List.head?_drop, ← hlater]
      rfl
    cases he : execute ctx operation s with
    | mk s' result =>
      cases result with
      | error failure =>
        exact .inl ⟨[], s, s', operation, failure, rfl, hreach, he, fun more => Reference.run_cons_of_error s.pc _ he⟩
      | ok action =>
        have hpc : s'.advance.pc = s.pc + 1 := congrArg (· + 1) (execute_pc_eq he)
        have hrest : operations <+: ctx.program.operations.drop s'.advance.pc := by
          rw [hpc, ← List.drop_drop, ← hlater, List.drop_one]
          exact List.prefix_append _ _
        have hreach' : ctx.reach s'.advance.pc = some s'.advance := by
          rw [hpc]
          exact reach_succ hreach (State.next_of_execute_ok hop he)
        let step : Step := ⟨s.pc, ctx.program.name s.pc, action, s'.main⟩
        have hrun : ∀ more, Reference.run ctx s.pc (operation :: operations ++ more) s =
            let rest := Reference.run ctx s'.advance.pc (operations ++ more) s'.advance
            { rest with steps := step :: rest.steps } := by
          intro more
          rw [hpc]
          exact Reference.run_cons_of_ok s.pc _ he
        rcases ih s'.advance hrest hreach' with
          ⟨steps, t, t', operation', failure, hop', ht, hf, hstop⟩ | ⟨steps, t, hlen, htpc, ht, hthrough⟩
        · refine .inl ⟨step :: steps, t, t', operation', failure, hop', ?_, hf, fun more => ?_⟩
          · rw [List.length_cons, Nat.add_comm steps.length, ← Nat.add_assoc, ← hpc]
            exact ht
          · rw [hrun, hstop]
        · refine .inr ⟨step :: steps, t, congrArg (· + 1) hlen, ?_, ht, fun more => ?_⟩
          · rw [htpc, hpc, List.length_cons, Nat.add_assoc, Nat.add_comm 1]
          · rw [hrun, hthrough]
            rfl

/-- the run of a program fails at operation number `n`: it comes to a state where this operation fails -/
def FailsAt (ctx : Context) (n : Nat) (failure : Failure) : Prop :=
  ∃ s operation, ctx.reach n = some s ∧ ctx.program.operations[n]? = some operation ∧
    (execute ctx operation s).2 = .error failure

/-- a run fails for anything but open blocks if and only if it fails at an operation -/
theorem failed_iff (ctx : Context) {failure : Failure} (hk : failure.kind ≠ .unbalancedIf) :
    (Reference.run ctx 0 ctx.program.operations .initial).ending = .failed failure ↔ ∃ n, ctx.FailsAt n failure := by
  constructor
  · intro hfailed
    rcases ctx.run_append .initial (List.prefix_refl ctx.program.operations) rfl with
      ⟨steps, t, t', operation, failure', hop, ht, hf, hstop⟩ | ⟨steps, t, -, -, -, hthrough⟩
    · have hrun : Reference.run ctx 0 (ctx.program.operations ++ []) .initial = ⟨steps, .failed failure', some t'⟩ :=
        hstop []
      rw [List.append_nil] at hrun
      rw [hrun] at hfailed
      cases hfailed
      have hreach : ctx.reach (0 + steps.length) = some t := ht
      rw [Nat.zero_add] at hreach
      exact ⟨steps.length, t, operation, hreach, hop, by rw [hf]⟩
    · have hrun : (Reference.run ctx 0 (ctx.program.operations ++ []) .initial).ending =
          (Reference.run ctx t.pc [] t).ending := by
        show (Reference.run ctx State.initial.pc _ .initial).ending = _
        rw [hthrough []]
      rw [List.append_nil, hfailed] at hrun
      exact absurd (Reference.kind_of_run_nil hrun.symm) hk
  · rintro ⟨n, s, operation, hreach, hop, hf⟩
    obtain ⟨-, before, hrun⟩ := run_of_reach hreach
    obtain ⟨hlt, hget⟩ := List.getElem?_eq_some_iff.1 hop
    cases he : execute ctx operation s with
    | mk s' result =>
      rw [he] at hf
      cases hf
      have hrest : Reference.run ctx n (ctx.program.operations.drop n) s = ⟨[], .failed failure, some s'⟩ := by
        rw [List.drop_eq_getElem_cons hlt, hget]
        exact Reference.run_cons_of_error n _ he
      rw [hrun, hrest]

end Context

/-! ## Where a session stands -/

/-- where the run of a program stands: before an operation that it has come to, or where the step from there has left
it that ended it -/
inductive State.Stands (ctx : Context) : State → Option Ending → Prop where
  | before {s : State} (h : ctx.reach s.pc = some s) : Stands ctx s none
  | after {s s' : State} {ending : Ending} (h : ctx.reach s.pc = some s) (hn : s.next ctx = (s', .ended ending)) :
      Stands ctx s' (some ending)

/-- one step leads from where a run has come to to where it comes next -/
theorem State.next_stands (ctx : Context) (s : State) (h : s.Stands ctx none) :
    (s.next ctx).1.Stands ctx (s.next ctx).2.ending? := by
  cases h with
  | before hreach =>
    cases hn : s.next ctx with
    | mk s' outcome =>
      cases outcome with
      | continued step =>
        have hpc : s'.pc = s.pc + 1 := (State.next_continued hn).2
        refine .before ?_
        rw [hpc]
        exact Context.reach_succ hreach hn
      | ended ending => exact .after hreach hn

/-- after any calls, the state of a session is one that the run of its script comes to -/
theorem History.stands (script : Bytes) (spend : Option Spend) (strict : Bool) (calls : List Call) :
    ((History.new script spend strict).calls calls).session.Has State.Stands :=
  state_invariant (fun _ => .before rfl) State.next_stands script spend strict calls

theorem History.stands_of_decode {script : Bytes} {spend : Option Spend} {strict : Bool} {calls : List Call}
    {program : Program} {s : State} :
    let h := (History.new script spend strict).calls calls
    Program.decode h.script = .ok program → h.session.run.state? = some s →
      s.Stands ⟨program, h.spend, strict⟩ h.session.run.ending? := by
  intro h hp hs
  have hfollows : h.Follows strict := (Follows.new script spend strict).calls calls
  obtain ⟨program', hp', hstands⟩ := stands script spend strict calls s hs
  cases (hfollows.script_eq.trans hp).symm.trans hp'
  rw [← hfollows.spend_eq, ← hfollows.strict_eq]
  exact hstands

theorem History.reach_of_going {script : Bytes} {spend : Option Spend} {strict : Bool} {calls : List Call}
    {program : Program} :
    let h := (History.new script spend strict).calls calls
    let s := h.session.run.state?.getD .initial
    Program.decode h.script = .ok program → h.session.run.ending? = none →
      Context.reach ⟨program, h.spend, strict⟩ s.pc = some s := by
  intro h s hp hgoing
  cases hs : h.session.run.state? with
  | none =>
    have hinit : s = .initial := congrArg (Option.getD · State.initial) hs
    rw [hinit]
    rfl
  | some t =>
    have hsome : s = t := congrArg (Option.getD · State.initial) hs
    have hstands := stands_of_decode hp hs
    rw [hgoing] at hstands
    cases hstands with
    | before hreach =>
      rw [hsome]
      exact hreach

/-- the ending that is kept is the one among the outcomes -/
theorem History.ended_mem_log_iff (script : Bytes) (spend : Option Spend) (strict : Bool) (calls : List Call) :
    let h := (History.new script spend strict).calls calls
    ∀ ending, .ended ending ∈ h.log ↔ h.session.run.ending? = some ending := by
  let Agrees (h : History) : Prop := ∀ ending, .ended ending ∈ h.log ↔ h.session.run.ending? = some ending
  have hnone : ∀ ending : Ending, Outcome.ended ending ∈ ([] : List Outcome) ↔ none = some ending :=
    fun ending => iff_of_false List.not_mem_nil nofun
  refine invariant (P := Agrees) ?_ (fun _ _ _ _ => hnone) hnone calls
  intro h ih ending
  show .ended ending ∈ h.log ++ [h.session.step.2] ↔ h.session.step.1.run.ending? = some ending
  rw [List.mem_append, List.mem_singleton, ih]
  cases he : h.session.run.ending? with
  | some ending' =>
    rw [(Session.step_of_ending_some he).1, he, Outcome.ended.injEq, Option.some.injEq, eq_comm (a := ending), or_self]
  | none =>
    rcases Session.step_of_ending_none he with ⟨step, run, hstep, -, hgoing, -⟩ | ⟨hstep, -⟩ <;> rw [hstep]
    · refine iff_of_false ?_ ?_
      · rintro (h | h) <;> cases h
      · simp only [hgoing]
        nofun
    · rw [Outcome.ended.injEq, Session.last, Option.some.injEq, eq_comm (a := ending)]
      exact or_iff_right nofun

end BitcoinScript
