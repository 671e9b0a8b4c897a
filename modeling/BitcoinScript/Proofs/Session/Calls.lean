/-
Sessions under any sequence of calls. A session keeps where its run stands, its state and its ending between calls, and
the calls that run to the end may come at any time, as may a reset. Whatever the order, what the calls see is one run.

Results:
- `calls_follow_reference`: the outcomes since the last reset, returned or not, are the first ones of the reference run
  of the script, which are its steps, and after the last one its ending again and again; each call answers from the next
  one on; after the ending no call but a reset changes anything; and a reset gives the session that a new one would be.
- `History.exists_steps`: a call that is no reset is a number of steps.
- `History.invariant`: what every step and every reset keeps, all calls keep; for what is said of the session alone,
  `History.session_invariant`, and of its states, `History.state_invariant`.
-/
import BitcoinScript.Proofs.Session.Reference

namespace BitcoinScript

/-- a call on a session -/
inductive Call where
  | step
  | finish
  | trace
  | report
  | reset (script : Bytes) (spend : Option Spend)

/-- what a call answers -/
inductive Answer where
  | step (outcome : Outcome)
  | finish (ending : Ending)
  | trace (steps : List Step) (ending : Ending)
  | report (report : Report)
  | reset (refusal : Except Failure Unit)

/-- whether a call starts over -/
def Call.isReset : Call → Bool
  | .reset _ _ => true
  | _ => false

/-- makes a call -/
def Session.call (session : Session) : Call → Session × Answer
  | .step => (session.step.1, .step session.step.2)
  | .finish => (session.finish.1, .finish session.finish.2)
  | .trace => (session.trace.1, .trace session.trace.2.1 session.trace.2.2)
  | .report => (session.report.1, .report session.report.2)
  | .reset script spend => ((session.reset script spend).1, .reset (session.reset script spend).2)

/-- a session with the script and the spend that it was last given, and what has come of them since -/
structure History where
  script : Bytes
  spend : Option Spend
  session : Session
  /-- the outcomes of all steps, whether a call gave them back or not -/
  log : List Outcome

namespace History

/-- a new session -/
def new (script : Bytes) (spend : Option Spend) (strict : Bool) : History :=
  ⟨script, spend, .new script spend strict, []⟩

/-- goes on with a call -/
def call (h : History) (call : Call) : History :=
  let session := (h.session.call call).1
  match call with
  | .step => { h with session, log := h.log ++ [h.session.step.2] }
  | .finish | .trace | .report => { h with session, log := h.log ++ h.session.outcomes }
  | .reset script spend => ⟨script, spend, session, []⟩

/-- goes on with calls, one after another -/
def calls (h : History) (calls : List Call) : History :=
  calls.foldl call h

/-- the reference run of the script that the session has -/
def reference (h : History) (strict : Bool) : Reference :=
  .of h.script h.spend strict

end History

/-! ## The answers of the reference run -/

namespace Reference

/-- the summary of a run of a program, or of a script that is refused -/
def result (ref : Reference) (program? : Option Program) : RunResult :=
  let finalStack := (ref.final?.map (·.main)).getD []
  match ref.ending with
  | .endOfScript => ⟨(finalStack.head?.map Number.isTrue).getD false, none, none, finalStack⟩
  | .failed failure =>
    let opcode := program?.bind fun program => program.chunks[ref.steps.length]?.map Chunk.name
    ⟨false, some failure, opcode, finalStack⟩

/-- what a call answers after `n` outcomes -/
def answer (ref : Reference) (script : Bytes) (spend : Option Spend) (n : Nat) : Call → Answer
  | .step => .step (ref.outcome n)
  | .finish => .finish ref.ending
  | .trace => .trace (ref.steps.drop n) ref.ending
  | .report =>
    let program? := (Program.decode script).toOption
    .report ⟨program?, spend, ref.steps.drop n, some (ref.result program?)⟩
  | .reset script _ => .reset ((Program.decode script).map fun _ => ())

theorem final_pc_run (ctx : Context) (operations : List Operation) (s : State) :
    ∃ final, (run ctx s.pc operations s).final? = some final ∧
      final.pc = s.pc + (run ctx s.pc operations s).steps.length := by
  induction operations generalizing s with
  | nil => exact ⟨s, rfl, rfl⟩
  | cons operation operations ih =>
    cases he : execute ctx operation s with
    | mk s' result =>
      have hpc : s'.pc = s.pc := execute_pc_eq he
      cases result with
      | error failure =>
        rw [run_cons_of_error s.pc operations he]
        exact ⟨s', rfl, hpc⟩
      | ok action =>
        have hadv : s'.advance.pc = s.pc + 1 := congrArg (· + 1) hpc
        obtain ⟨final, hfinal, hlen⟩ := ih s'.advance
        rw [hadv] at hfinal hlen
        rw [run_cons_of_ok s.pc operations he]
        refine ⟨final, hfinal, ?_⟩
        rw [hlen]
        simp only [List.length_cons]
        omega

theorem result_of (script : Bytes) (spend : Option Spend) (strict : Bool) :
    let ref := Reference.of script spend strict
    Run.result? ⟨Program.decode script, ref.final?, ref.ending.phase, some ref.ending⟩ =
      some (ref.result (Program.decode script).toOption) := by
  intro ref
  have hopcode : Run.opcode? ⟨Program.decode script, ref.final?, ref.ending.phase, some ref.ending⟩ =
      (Program.decode script).toOption.bind fun program => program.chunks[ref.steps.length]?.map Chunk.name := by
    cases hd : Program.decode script with
    | error failure => rfl
    | ok program =>
      have href : ref = run ⟨program, spend, strict⟩ 0 program.operations .initial := by
        simp only [ref, Reference.of, hd]
      obtain ⟨final, hfinal, hpc⟩ := final_pc_run ⟨program, spend, strict⟩ program.operations .initial
      rw [show (State.initial.pc : Nat) = 0 from rfl, ← href] at hfinal hpc
      rw [Nat.zero_add] at hpc
      simp only [Run.opcode?, hfinal, hpc, Except.toOption, Option.bind_some, Program.length, Program.name]
      by_cases hl : ref.steps.length < program.chunks.length
      · rw [if_pos hl, List.getElem?_eq_getElem hl]
        rfl
      · rw [if_neg hl, List.getElem?_eq_none (by omega)]
        rfl
  unfold Run.result? Reference.result
  rw [hopcode]
  cases ref.ending <;> rfl

end Reference

/-! ## The invariant -/

/-- the session stands where the log says: it has its script and its spend, the log holds the first outcomes of the
reference run, and the rest of that run is left -/
structure History.Follows (strict : Bool) (h : History) : Prop where
  strict_eq : h.session.strict = strict
  spend_eq : h.session.spend = h.spend
  script_eq : h.session.run.script = Program.decode h.script
  settled : h.session.Settled
  log_eq : h.log = (h.reference strict).outcomes h.log.length
  rest_eq : h.session.rest = (h.reference strict).drop h.log.length
  ended : (h.reference strict).steps.length < h.log.length → h.session.run.ending? ≠ none

theorem Session.last_settled (session : Session) : session.last.Settled := .inr rfl

theorem Session.step_outcome {session : Session} (hs : session.Settled) :
    session.step.2 = session.rest.outcome 0 := by
  rcases step_cases hs with ⟨step, session', hstep, -, -, hrest⟩ | ⟨hstep, hnil⟩
  · rw [hstep, hrest]
    rfl
  · rw [hstep, Reference.outcome, hnil]
    rfl

namespace History.Follows

variable {strict : Bool} {h : History}

theorem new (script : Bytes) (spend : Option Spend) (strict : Bool) :
    (History.new script spend strict).Follows strict where
  strict_eq := rfl
  spend_eq := rfl
  script_eq := rfl
  settled := .inl rfl
  log_eq := (Reference.outcomes_zero _).symm
  rest_eq := Session.rest_new script spend strict
  ended hlt := absurd hlt (Nat.not_lt_zero _)

/-- steps that come to the next outcomes of the reference run, and leave the session where the run goes on -/
theorem advance (hf : h.Follows strict) {session : Session} {outcomes : List Outcome} (hs : session.Settled)
    (hlast : session.last = h.session.last) (hrest : session.rest = h.session.rest.drop outcomes.length)
    (hlog : h.log ++ outcomes = (h.reference strict).outcomes (h.log.length + outcomes.length))
    (hended : (h.reference strict).steps.length < h.log.length + outcomes.length → session.run.ending? ≠ none) :
    History.Follows strict { h with session, log := h.log ++ outcomes } where
  strict_eq := (congrArg Session.strict hlast).trans hf.strict_eq
  spend_eq := (congrArg Session.spend hlast).trans hf.spend_eq
  script_eq := (congrArg (fun session => session.run.script) hlast).trans hf.script_eq
  settled := hs
  log_eq := by rw [List.length_append]; exact hlog
  rest_eq := by
    rw [List.length_append, hrest, hf.rest_eq, Reference.drop_drop]
    rfl
  ended hlt := by
    rw [List.length_append] at hlt
    exact hended hlt

theorem outcome_eq (hf : h.Follows strict) : h.session.step.2 = (h.reference strict).outcome h.log.length := by
  rw [Session.step_outcome hf.settled, hf.rest_eq, Reference.outcome_drop, Nat.add_zero]

theorem after_step (hf : h.Follows strict) : (h.call .step).Follows strict := by
  have hlog : h.log ++ [h.session.step.2] = (h.reference strict).outcomes (h.log.length + 1) := by
    rw [Reference.outcomes_succ, ← hf.log_eq, hf.outcome_eq]
  rcases Session.step_cases hf.settled with ⟨step, session', hstep, hs, hlast, hrest⟩ | ⟨hstep, hnil⟩
  · have hsession : h.session.step.1 = session' := by rw [hstep]
    have hleft : h.session.rest.steps ≠ [] := by
      rw [hrest]
      exact List.cons_ne_nil _ _
    have hlt : h.log.length < (h.reference strict).steps.length := by
      rw [hf.rest_eq, Reference.drop, ne_eq, List.drop_eq_nil_iff] at hleft
      omega
    refine hf.advance ?_ ?_ ?_ hlog (fun hgt => by simp only [List.length_singleton] at hgt; omega)
    · rw [Session.call, hsession]
      exact hs
    · rw [Session.call, hsession]
      exact hlast
    · rw [Session.call, hsession, hrest]
      rfl
  · have hsession : h.session.step.1 = h.session.last := by rw [hstep]
    refine hf.advance ?_ ?_ ?_ hlog ?_
    · rw [Session.call, hsession]
      exact h.session.last_settled
    · rw [Session.call, hsession]
      rfl
    · rw [Session.call, hsession, Reference.drop, hnil]
      rfl
    · rw [Session.call, hsession]
      exact fun _ => Option.some_ne_none _

theorem after_end (hf : h.Follows strict) :
    History.Follows strict { h with session := h.session.last, log := h.log ++ h.session.outcomes } := by
  obtain ⟨-, -, ho⟩ := Session.run_to_end hf.settled
  have hlen : h.session.outcomes.length = h.session.rest.steps.length + 1 := by
    rw [ho, List.length_append, List.length_map, List.length_singleton]
  refine hf.advance h.session.last_settled rfl ?_ ?_ (fun _ => Option.some_ne_none _)
  · rw [hlen, Reference.drop, List.drop_eq_nil_of_le (Nat.le_succ _)]
    rfl
  · let ref := h.reference strict
    let n := h.log.length
    calc h.log ++ h.session.outcomes
      _ = ref.outcomes n ++ ((ref.drop n).steps.map .continued ++ [.ended ref.ending]) := by
        rw [← hf.log_eq, ho, hf.rest_eq]
        rfl
      _ = ref.outcomes (n + (ref.drop n).steps.length + 1) := ref.outcomes_append_drop n
      _ = ref.outcomes (n + h.session.outcomes.length) := by
        rw [hlen, hf.rest_eq]
        rfl

theorem call (hf : h.Follows strict) (call : Call) : (h.call call).Follows strict := by
  obtain ⟨hfin, htr, -⟩ := Session.run_to_end hf.settled
  cases call with
  | step => exact hf.after_step
  | finish =>
    rw [History.call, Session.call, hfin]
    exact hf.after_end
  | trace =>
    rw [History.call, Session.call, htr]
    exact hf.after_end
  | report =>
    rw [History.call, Session.call, Session.report, htr]
    exact hf.after_end
  | reset script spend =>
    have hr : (h.session.reset script spend).1 = .new script spend strict := by
      rw [← hf.strict_eq]
      rfl
    rw [History.call, Session.call, hr]
    exact .new script spend strict

theorem calls (hf : h.Follows strict) (calls : List Call) : (h.calls calls).Follows strict := by
  induction calls generalizing h with
  | nil => exact hf
  | cons call calls ih => exact ih (hf.call call)

end History.Follows

/-! ## What the calls answer -/

/-- every call answers from the outcome on that comes next -/
theorem History.Follows.answer_eq {strict : Bool} {h : History} (hf : h.Follows strict) (call : Call) :
    (h.session.call call).2 = (h.reference strict).answer h.script h.spend h.log.length call := by
  obtain ⟨hfin, htr, -⟩ := Session.run_to_end hf.settled
  cases call with
  | step => rw [Session.call, hf.outcome_eq]; rfl
  | finish => rw [Session.call, hfin, hf.rest_eq]; rfl
  | trace => rw [Session.call, htr, hf.rest_eq]; rfl
  | reset script spend => rfl
  | report =>
    have hresult : h.session.last.run.result? =
        some ((h.reference strict).result (Program.decode h.script).toOption) := by
      rw [Session.last, hf.rest_eq, hf.script_eq]
      exact Reference.result_of h.script h.spend strict
    have hreport : h.session.last.reportOf h.session.rest.steps =
        ⟨(Program.decode h.script).toOption, h.spend, (h.reference strict).steps.drop h.log.length,
          some ((h.reference strict).result (Program.decode h.script).toOption)⟩ := by
      simp only [Session.reportOf, hresult, hf.rest_eq]
      simp only [Session.last, Run.program?, hf.script_eq, hf.spend_eq, Reference.drop]
    rw [Session.call, Session.report, htr]
    exact congrArg Answer.report hreport

theorem Session.call_of_ended {session : Session} (hs : session.Settled) (he : session.run.ending? ≠ none) {call : Call}
    (hc : call.isReset = false) : (session.call call).1 = session := by
  obtain ⟨hfin, htr, -⟩ := run_to_end hs
  have hlast : session = session.last := hs.resolve_left he
  obtain ⟨ending, hending⟩ := Option.ne_none_iff_exists'.1 he
  cases call with
  | step => rw [Session.call, (step_of_ending_some hending).1]
  | finish => rw [Session.call, hfin, ← hlast]
  | trace => rw [Session.call, htr, ← hlast]
  | report => rw [Session.call, Session.report, htr, ← hlast]
  | reset script spend => cases hc

/-- **Any calls follow the reference run.** After any calls on a session, the outcomes since the last reset are the
first ones of the reference run of its script, and the next call answers from the next one on. After the ending no call
but a reset changes anything, and a reset gives a new session. -/
theorem calls_follow_reference (script : Bytes) (spend : Option Spend) (strict : Bool) (calls : List Call) :
    let h := (History.new script spend strict).calls calls
    let n := h.log.length
    let ref := Reference.of h.script h.spend strict
    h.log = (ref.steps.take n).map .continued ++ List.replicate (n - ref.steps.length) (.ended ref.ending) ∧
      (∀ call, (h.session.call call).2 = ref.answer h.script h.spend n call) ∧
      (ref.steps.length < n → ∀ call, call.isReset = false → (h.session.call call).1 = h.session) ∧
      ∀ script' spend', (h.session.call (.reset script' spend')).1 = .new script' spend' strict := by
  intro h n ref
  have hf : h.Follows strict := (History.Follows.new script spend strict).calls calls
  refine ⟨hf.log_eq, hf.answer_eq, ?_, ?_⟩
  · intro hlt call hc
    exact Session.call_of_ended hf.settled (hf.ended hlt) hc
  · intro script' spend'
    rw [← hf.strict_eq]
    rfl

/-! ## What every step keeps -/

/-- the ending, if a step comes to it -/
def Outcome.ending? : Outcome → Option Ending
  | .continued _ => none
  | .ended ending => some ending

theorem Session.step_of_ok {session : Session} {program : Program} (hp : session.run.script = .ok program)
    (he : session.run.ending? = none) :
    let r := (session.run.state?.getD .initial).next ⟨program, session.spend, session.strict⟩
    session.step.1.run.state? = some r.1 ∧ session.step.1.run.ending? = r.2.ending? := by
  intro r
  have hr : (session.run.state?.getD .initial).next ⟨program, session.spend, session.strict⟩ = r := rfl
  obtain ⟨s, outcome⟩ := r
  simp only [step, Run.step, Run.next, he, hp, hr]
  cases outcome with
  | continued step => exact ⟨rfl, (session.run.begin_ending?).trans he⟩
  | ended ending => exact ⟨rfl, rfl⟩

/-- a property of states and endings holds of what a session has -/
def Session.Has (Q : Context → State → Option Ending → Prop) (session : Session) : Prop :=
  ∀ s, session.run.state? = some s → ∃ program, session.run.script = .ok program ∧
    Q ⟨program, session.spend, session.strict⟩ s session.run.ending?

theorem Session.step_script (session : Session) : session.step.1.run.script = session.run.script := by
  cases he : session.run.ending? with
  | some ending => rw [(step_of_ending_some he).1]
  | none =>
    rcases step_of_ending_none he with ⟨step, run, hstep, hscript, -, -⟩ | ⟨hstep, -⟩
    · rw [hstep]
      exact hscript
    · rw [hstep]
      rfl

theorem Session.Has.of_going {Q : Context → State → Option Ending → Prop} {session : Session} {program : Program}
    (h : session.Has Q) (hinit : ∀ ctx, Q ctx .initial none) (hp : session.run.script = .ok program)
    (he : session.run.ending? = none) :
    Q ⟨program, session.spend, session.strict⟩ (session.run.state?.getD .initial) none := by
  cases hs : session.run.state? with
  | none => exact hinit _
  | some s =>
    obtain ⟨program', hp', hq⟩ := h s hs
    cases hp.symm.trans hp'
    exact he ▸ hq

theorem Session.has_step {Q : Context → State → Option Ending → Prop} (hinit : ∀ ctx, Q ctx .initial none)
    (hnext : ∀ ctx s, Q ctx s none → Q ctx (s.next ctx).1 (s.next ctx).2.ending?) {session : Session}
    (h : session.Has Q) : session.step.1.Has Q := by
  cases he : session.run.ending? with
  | some ending =>
    rw [(step_of_ending_some he).1]
    exact h
  | none =>
    intro s hs
    rw [step_script]
    cases hp : session.run.script with
    | error failure =>
      have hstate : session.step.1.run.state? = session.run.state? := by
        simp only [step, Run.step, Run.next, he, hp]
      obtain ⟨program, hp', -⟩ := h s (hstate ▸ hs)
      cases hp.symm.trans hp'
    | ok program =>
      let ctx : Context := ⟨program, session.spend, session.strict⟩
      obtain ⟨hs', he'⟩ := step_of_ok hp he
      have hbefore : Q ctx (session.run.state?.getD .initial) none := h.of_going hinit hp he
      refine ⟨program, rfl, ?_⟩
      rw [he', ← Option.some.inj (hs'.symm.trans hs)]
      exact hnext ctx _ hbefore

section

variable {h : History} {session' : Session}

theorem History.call_of_ended {ending : Ending} {call : Call} (hc : call.isReset = false)
    (hstep : h.session.step = (session', .ended ending)) : h.call call = h.call .step := by
  cases call with
  | step => rfl
  | finish =>
    simp only [History.call, Session.call, Session.finish_of_ended hstep, Session.outcomes_of_ended hstep, hstep]
  | trace | report =>
    simp only [History.call, Session.call, Session.report, Session.trace_of_ended hstep,
      Session.outcomes_of_ended hstep, hstep]
  | reset script spend => cases hc

theorem History.call_of_continued {step : Step} {call : Call} (hc : call.isReset = false) (hne : call ≠ .step)
    (hstep : h.session.step = (session', .continued step)) : h.call call = (h.call .step).call call := by
  cases call with
  | step => exact absurd rfl hne
  | finish =>
    simp only [History.call, Session.call, Session.finish_of_continued hstep, Session.outcomes_of_continued hstep,
      hstep, List.append_assoc, List.singleton_append]
  | trace | report =>
    simp only [History.call, Session.call, Session.report, Session.trace_of_continued hstep,
      Session.outcomes_of_continued hstep, hstep, List.append_assoc, List.singleton_append]
  | reset script spend => cases hc

end

/-- every call that is no reset is a number of steps. The induction is on the operations that are left -/
theorem History.exists_steps (h : History) {call : Call} (hc : call.isReset = false) :
    ∃ n, h.call call = h.calls (List.replicate n .step) := by
  by_cases hne : call = .step
  · subst hne
    exact ⟨1, rfl⟩
  · induction hk : h.session.run.ahead using Nat.strongRecOn generalizing h with
    | ind k ih =>
      subst hk
      cases hstep : h.session.step with
      | mk session' outcome =>
        cases outcome with
        | ended ending => exact ⟨1, h.call_of_ended hc hstep⟩
        | continued step =>
          have hlt : (h.call .step).session.run.ahead < h.session.run.ahead := by
            simp only [History.call, Session.call, hstep]
            exact Session.ahead_step_lt hstep
          obtain ⟨n, hn⟩ := ih _ hlt (h.call .step) rfl
          exact ⟨n + 1, (call_of_continued hc hne hstep).trans hn⟩

theorem History.call_invariant {P : History → Prop} (hstep : ∀ h, P h → P (h.call .step)) {h : History} (hp : P h)
    {call : Call} (hc : call.isReset = false) : P (h.call call) := by
  obtain ⟨n, hn⟩ := h.exists_steps hc
  rw [hn]
  clear hn
  induction n generalizing h with
  | zero => exact hp
  | succ n ih => exact ih (hstep h hp)

/-- what every step keeps, any number of calls without a reset keep -/
theorem History.calls_invariant {P : History → Prop} (hstep : ∀ h, P h → P (h.call .step)) {h : History} (hp : P h)
    {calls : List Call} (hcalls : ∀ call ∈ calls, call.isReset = false) : P (h.calls calls) := by
  induction calls generalizing h with
  | nil => exact hp
  | cons call calls ih =>
    obtain ⟨hcall, hcalls⟩ := List.forall_mem_cons.1 hcalls
    exact ih (call_invariant hstep hp hcall) hcalls

/-- what every step and every reset keeps, all calls keep -/
theorem History.invariant {P : History → Prop} (hstep : ∀ h, P h → P (h.call .step))
    (hreset : ∀ h script spend, P h → P (h.call (.reset script spend))) {h : History} (hp : P h) (calls : List Call) :
    P (h.calls calls) := by
  induction calls generalizing h with
  | nil => exact hp
  | cons call calls ih =>
    apply ih
    cases hc : call.isReset with
    | true =>
      cases call with
      | reset script spend => exact hreset h script spend hp
      | _ => cases hc
    | false => exact call_invariant hstep hp hc

theorem History.session_invariant {P : Session → Prop} {strict : Bool}
    (hnew : ∀ script spend, P (.new script spend strict)) (hstep : ∀ session, P session → P session.step.1)
    (script : Bytes) (spend : Option Spend) (calls : List Call) :
    P ((History.new script spend strict).calls calls).session := by
  have hboth : let session := ((History.new script spend strict).calls calls).session
      session.strict = strict ∧ P session := by
    refine invariant (P := fun h => h.session.strict = strict ∧ P h.session) ?_ ?_ ⟨rfl, hnew script spend⟩ calls
    · intro h hp
      exact ⟨hp.1, hstep h.session hp.2⟩
    · intro h script' spend' hp
      have hr : (h.call (.reset script' spend')).session = .new script' spend' strict := by
        rw [← hp.1]
        rfl
      rw [hr]
      exact ⟨rfl, hnew script' spend'⟩
  exact hboth.2

/-- a property of states and endings that the machine begins with, and every step of the machine keeps, holds of what a
session has after any calls -/
theorem History.state_invariant {Q : Context → State → Option Ending → Prop} (hinit : ∀ ctx, Q ctx .initial none)
    (hnext : ∀ ctx s, Q ctx s none → Q ctx (s.next ctx).1 (s.next ctx).2.ending?) (script : Bytes)
    (spend : Option Spend) (strict : Bool) (calls : List Call) :
    ((History.new script spend strict).calls calls).session.Has Q :=
  session_invariant (fun _ _ _ hs => absurd hs.symm (Option.some_ne_none _)) (fun _ => Session.has_step hinit hnext)
    script spend calls

theorem History.state_of_ended (script : Bytes) (spend : Option Spend) (strict : Bool) (calls : List Call) :
    let session := ((History.new script spend strict).calls calls).session
    ∀ program, session.run.script = .ok program → session.run.ending? ≠ none → ∃ s, session.run.state? = some s := by
  intro session
  let P (session : Session) : Prop :=
    ∀ program, session.run.script = .ok program → session.run.ending? ≠ none → ∃ s, session.run.state? = some s
  have hstep : ∀ session, P session → P session.step.1 := by
    intro session h program hp hend
    cases he : session.run.ending? with
    | some ending =>
      rw [(Session.step_of_ending_some he).1] at hp hend ⊢
      exact h program hp hend
    | none =>
      rw [Session.step_script] at hp
      exact ⟨_, (Session.step_of_ok hp he).1⟩
  exact session_invariant (fun _ _ _ _ hend => absurd rfl hend) hstep script spend calls

end BitcoinScript
