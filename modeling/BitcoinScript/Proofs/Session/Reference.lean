/-
The run of a script as one recursion: operation after operation is executed, and what each did is noted, up to the first
failure or the end. Nothing is kept between two operations but the state. A session is compared with it.

Results:
- `Session.step_cases`: a step gives the first outcome of what is left of the run, and leaves the rest of it.
- `Session.run_to_end`: so a session that runs to the end gives all that is left, whatever it keeps of it.
-/
import BitcoinScript.Report

namespace BitcoinScript

/-- a whole run -/
structure Reference where
  steps : List Step
  ending : Ending
  /-- the state at the end, if the script is decoded -/
  final? : Option State

namespace Reference

/-- the run of the operations from number `i` on -/
def run (ctx : Context) : (i : Nat) → List Operation → State → Reference
  | _, [], s =>
    ⟨[], if s.branches.count = 0 then .endOfScript else .failed (.unclosedBlocks s.branches.count), some s⟩
  | i, operation :: operations, s =>
    match execute ctx operation s with
    | (s', .error failure) => ⟨[], .failed failure, some s'⟩
    | (s', .ok action) =>
      let rest := run ctx (i + 1) operations s'.advance
      { rest with steps := ⟨i, ctx.program.name i, action, s'.main⟩ :: rest.steps }

theorem run_cons_of_ok {ctx : Context} {operation : Operation} {s s' : State} {action : Action} (i : Nat)
    (operations : List Operation) (h : execute ctx operation s = (s', .ok action)) :
    run ctx i (operation :: operations) s =
      let rest := run ctx (i + 1) operations s'.advance
      { rest with steps := ⟨i, ctx.program.name i, action, s'.main⟩ :: rest.steps } := by
  rw [run, h]

theorem run_cons_of_error {ctx : Context} {operation : Operation} {s s' : State} {failure : Failure} (i : Nat)
    (operations : List Operation) (h : execute ctx operation s = (s', .error failure)) :
    run ctx i (operation :: operations) s = ⟨[], .failed failure, some s'⟩ := by
  rw [run, h]

/-- the run of a script -/
def of (script : Bytes) (spend : Option Spend) (strict : Bool) : Reference :=
  match Program.decode script with
  | .error failure => ⟨[], .failed failure, none⟩
  | .ok program => run ⟨program, spend, strict⟩ 0 program.operations .initial

/-- what is left of a run after `n` steps -/
def drop (ref : Reference) (n : Nat) : Reference :=
  { ref with steps := ref.steps.drop n }

/-- outcome number `n`: a step, or the ending, which stays -/
def outcome (ref : Reference) (n : Nat) : Outcome :=
  match ref.steps[n]? with
  | some step => .continued step
  | none => .ended ref.ending

/-- the first `n` outcomes: steps, and after the last one the ending again and again -/
def outcomes (ref : Reference) (n : Nat) : List Outcome :=
  (ref.steps.take n).map .continued ++ List.replicate (n - ref.steps.length) (.ended ref.ending)

@[simp] theorem drop_zero (ref : Reference) : ref.drop 0 = ref := rfl

@[simp] theorem drop_drop (ref : Reference) (m n : Nat) : (ref.drop m).drop n = ref.drop (m + n) := by
  simp only [drop, List.drop_drop]

@[simp] theorem outcome_drop (ref : Reference) (m n : Nat) : (ref.drop m).outcome n = ref.outcome (m + n) := by
  simp only [outcome, drop, List.getElem?_drop]

@[simp] theorem outcomes_zero (ref : Reference) : ref.outcomes 0 = [] := by
  simp only [outcomes, List.take_zero, List.map_nil, Nat.zero_sub, List.replicate_zero, List.append_nil]

theorem outcomes_succ (ref : Reference) (n : Nat) : ref.outcomes (n + 1) = ref.outcomes n ++ [ref.outcome n] := by
  by_cases hn : n < ref.steps.length
  · have hz : n + 1 - ref.steps.length = 0 := by omega
    have hz' : n - ref.steps.length = 0 := by omega
    simp only [outcomes, outcome, hz, hz', List.take_add_one, List.getElem?_eq_getElem hn, List.map_append,
      Option.toList_some, List.map_cons, List.map_nil, List.replicate_zero, List.append_nil]
  · have hs : n + 1 - ref.steps.length = n - ref.steps.length + 1 := by omega
    have ht : ref.steps.take (n + 1) = ref.steps.take n := by
      rw [List.take_of_length_le (by omega), List.take_of_length_le (by omega)]
    have hg : ref.steps[n]? = none := List.getElem?_eq_none (by omega)
    simp only [outcomes, outcome, hs, ht, hg, List.replicate_succ', List.append_assoc]

theorem outcomes_append_drop (ref : Reference) (n : Nat) :
    ref.outcomes n ++ ((ref.drop n).steps.map .continued ++ [.ended ref.ending]) =
      ref.outcomes (n + (ref.drop n).steps.length + 1) := by
  induction hk : (ref.drop n).steps generalizing n with
  | nil =>
    have hn : ref.steps[n]? = none := List.getElem?_eq_none (List.drop_eq_nil_iff.1 hk)
    rw [List.length_nil, Nat.add_zero, outcomes_succ, outcome, hn]
    rfl
  | cons step steps ih =>
    have hn : ref.steps[n]? = some step := by
      rw [← List.head?_drop]
      exact congrArg List.head? hk
    have hd : (ref.drop (n + 1)).steps = steps := by
      rw [← drop_drop]
      show (ref.drop n).steps.drop 1 = steps
      rw [hk, List.drop_succ_cons, List.drop_zero]
    have ho : ref.outcomes (n + 1) = ref.outcomes n ++ [.continued step] := by rw [outcomes_succ, outcome, hn]
    have hl : n + (step :: steps).length = n + 1 + steps.length := by
      rw [List.length_cons]
      omega
    rw [hl, ← ih (n + 1) hd, ho, List.map_cons, List.append_assoc]
    rfl

end Reference

/-! ## What is left of the run of a session -/

/-- what is left of a run: nothing but its ending once that is kept, and before that the operations from its state on -/
def Run.rest (spend : Option Spend) (strict : Bool) (run : Run) : Reference :=
  match run.ending?, run.script with
  | some ending, _ => ⟨[], ending, run.state?⟩
  | none, .error failure => ⟨[], .failed failure, run.state?⟩
  | none, .ok program =>
    let s := run.state?.getD .initial
    .run ⟨program, spend, strict⟩ s.pc (program.operations.drop s.pc) s

/-- what is left of the run of a session -/
def Session.rest (session : Session) : Reference :=
  session.run.rest session.spend session.strict

/-- a session at the end of its run -/
def Session.last (session : Session) : Session :=
  { session with
    run := ⟨session.run.script, session.rest.final?, session.rest.ending.phase, some session.rest.ending⟩ }

theorem Session.rest_new (script : Bytes) (spend : Option Spend) (strict : Bool) :
    (Session.new script spend strict).rest = Reference.of script spend strict := by
  simp only [rest, new, Run.rest, Run.load, Reference.of]
  cases Program.decode script <;> rfl

/-- the four ways of a step of the machine -/
theorem State.next_cases (ctx : Context) (s : State) :
    (∃ operation s' action, ctx.program.operations[s.pc]? = some operation ∧
        execute ctx operation s = (s', .ok action) ∧
        s.next ctx = (s'.advance, .continued ⟨s.pc, ctx.program.name s.pc, action, s'.main⟩)) ∨
      (∃ operation s' failure, ctx.program.operations[s.pc]? = some operation ∧
        execute ctx operation s = (s', .error failure) ∧ s.next ctx = (s', .ended (.failed failure))) ∨
      (ctx.program.operations.length ≤ s.pc ∧ s.branches.count = 0 ∧ s.next ctx = (s, .ended .endOfScript)) ∨
      (ctx.program.operations.length ≤ s.pc ∧ s.branches.count ≠ 0 ∧
        s.next ctx = (s, .ended (.failed (.unclosedBlocks s.branches.count)))) := by
  cases hget : ctx.program.chunks[s.pc]? with
  | none =>
    have hlen : ctx.program.operations.length ≤ s.pc := by
      rw [Program.operations, List.length_map]
      exact List.getElem?_eq_none_iff.1 hget
    by_cases hb : s.branches.count = 0
    · exact .inr (.inr (.inl ⟨hlen, hb, by simp only [next, hget, if_pos hb]⟩))
    · exact .inr (.inr (.inr ⟨hlen, hb, by simp only [next, hget, if_neg hb]⟩))
  | some chunk =>
    have hop : ctx.program.operations[s.pc]? = some chunk.operation := by
      rw [Program.operations, List.getElem?_map, hget]
      rfl
    cases he : execute ctx chunk.operation s with
    | mk s' result =>
      cases result with
      | ok action =>
        exact .inl ⟨chunk.operation, s', action, hop, he, by simp only [next, hget, he, Program.name]⟩
      | error failure => exact .inr (.inl ⟨chunk.operation, s', failure, hop, he, by simp only [next, hget, he]⟩)

theorem State.next_of_execute_ok {ctx : Context} {operation : Operation} {s s' : State} {action : Action}
    (hop : ctx.program.operations[s.pc]? = some operation) (he : execute ctx operation s = (s', .ok action)) :
    s.next ctx = (s'.advance, .continued ⟨s.pc, ctx.program.name s.pc, action, s'.main⟩) := by
  rcases next_cases ctx s with ⟨_, _, _, hop', he', hn⟩ | ⟨_, _, _, hop', he', -⟩ | ⟨hlen, -, -⟩ | ⟨hlen, -, -⟩
  · cases hop.symm.trans hop'
    cases he.symm.trans he'
    exact hn
  · cases hop.symm.trans hop'
    cases he.symm.trans he'
  · cases hop.symm.trans (List.getElem?_eq_none hlen)
  · cases hop.symm.trans (List.getElem?_eq_none hlen)

theorem State.run_of_next_continued {ctx : Context} {s s' : State} {step : Step}
    (h : s.next ctx = (s', .continued step)) :
    Reference.run ctx s.pc (ctx.program.operations.drop s.pc) s =
      let rest := Reference.run ctx s'.pc (ctx.program.operations.drop s'.pc) s'
      { rest with steps := step :: rest.steps } := by
  have hpc : s'.pc = s.pc + 1 := (State.next_continued h).2
  rcases next_cases ctx s with
    ⟨operation, s'', action, hop, he, hn⟩ | ⟨_, _, _, -, -, hn⟩ | ⟨-, -, hn⟩ | ⟨-, -, hn⟩ <;> cases h.symm.trans hn
  obtain ⟨hlt, hget⟩ := List.getElem?_eq_some_iff.1 hop
  rw [List.drop_eq_getElem_cons hlt, hget, Reference.run_cons_of_ok s.pc _ he, hpc]

theorem State.run_of_next_ended {ctx : Context} {s s' : State} {ending : Ending}
    (h : s.next ctx = (s', .ended ending)) :
    Reference.run ctx s.pc (ctx.program.operations.drop s.pc) s = ⟨[], ending, some s'⟩ := by
  rcases next_cases ctx s with
    ⟨_, _, _, -, -, hn⟩ | ⟨operation, s'', failure, hop, he, hn⟩ | ⟨hlen, hb, hn⟩ | ⟨hlen, hb, hn⟩ <;>
    cases h.symm.trans hn
  · obtain ⟨hlt, hget⟩ := List.getElem?_eq_some_iff.1 hop
    rw [List.drop_eq_getElem_cons hlt, hget]
    exact Reference.run_cons_of_error s.pc _ he
  · rw [List.drop_eq_nil_of_le hlen, Reference.run, if_pos hb]
  · rw [List.drop_eq_nil_of_le hlen, Reference.run, if_neg hb]

theorem Session.step_of_ending_none {session : Session} (h : session.run.ending? = none) :
    (∃ step run, session.step = ({ session with run }, .continued step) ∧ run.script = session.run.script ∧
        run.ending? = none ∧
        session.rest = { Session.rest { session with run } with
          steps := step :: (Session.rest { session with run }).steps }) ∨
      session.step = (session.last, .ended session.rest.ending) ∧ session.rest.steps = [] := by
  obtain ⟨strict, spend, script, state?, phase, ending?⟩ := session
  simp only at h
  subst h
  cases script with
  | error failure =>
    exact .inr ⟨rfl, rfl⟩
  | ok program =>
    cases hn : (state?.getD .initial).next ⟨program, spend, strict⟩ with
    | mk s outcome =>
      cases outcome with
      | continued step =>
        left
        refine ⟨step, ⟨.ok program, some s, .running s.pc, none⟩, ?_, rfl, rfl, ?_⟩
        · simp only [Session.step, Run.step, Run.next, hn, Run.begin_script, Run.begin_ending?]
        · exact State.run_of_next_continued hn
      | ended ending =>
        right
        have hr : Session.rest ⟨strict, spend, .ok program, state?, phase, none⟩ = ⟨[], ending, some s⟩ :=
          State.run_of_next_ended hn
        rw [Session.last, hr]
        refine ⟨?_, rfl⟩
        simp only [Session.step, Run.step, Run.next, hn, Run.begin_script]

theorem Session.step_of_ending_some {session : Session} {ending : Ending} (h : session.run.ending? = some ending) :
    session.step = (session, .ended ending) ∧ session.rest = ⟨[], ending, session.run.state?⟩ := by
  obtain ⟨strict, spend, script, state?, phase, ending?⟩ := session
  simp only at h
  subst h
  exact ⟨rfl, rfl⟩

/-! ## Running to the end -/

/-- a session that has not ended, or has come to its end as a run does -/
def Session.Settled (session : Session) : Prop :=
  session.run.ending? = none ∨ session = session.last

/-- the steps of a session, one after another. While something is left the next step takes it, and then the ending is
kept -/
theorem Session.step_cases {session : Session} (hs : session.Settled) :
    (∃ step session', session.step = (session', .continued step) ∧ session'.Settled ∧ session'.last = session.last ∧
        session.rest = { session'.rest with steps := step :: session'.rest.steps }) ∨
      session.step = (session.last, .ended session.rest.ending) ∧ session.rest.steps = [] := by
  cases he : session.run.ending? with
  | some ending =>
    obtain ⟨hstep, hrest⟩ := step_of_ending_some he
    have hlast : session = session.last := hs.resolve_left (by rw [he]; exact Option.some_ne_none ending)
    rw [← hlast, hrest]
    exact .inr ⟨hstep, rfl⟩
  | none =>
    rcases step_of_ending_none he with ⟨step, run, hstep, hscript, hnone, hrest⟩ | hlast
    · refine .inl ⟨step, { session with run }, hstep, .inl hnone, ?_, hrest⟩
      simp only [last, hrest, hscript]
    · exact .inr hlast

/-- what holds of sessions where nothing but the ending is left, and before each step if it does after it, holds of all
of them. The induction is on the steps that are left -/
@[elab_as_elim]
theorem Session.settled_induction {P : Session → Prop}
    (hended : ∀ session : Session, session.step = (session.last, .ended session.rest.ending) →
      session.rest.steps = [] → P session)
    (hcontinued : ∀ (session session' : Session) (step : Step), session.step = (session', .continued step) →
      session'.last = session.last → session.rest = { session'.rest with steps := step :: session'.rest.steps } →
      P session' → P session)
    {session : Session} (hs : session.Settled) : P session := by
  induction hk : session.rest.steps generalizing session with
  | nil =>
    rcases step_cases hs with ⟨step, session', -, -, -, hrest⟩ | ⟨hstep, hnil⟩
    · rw [hrest] at hk
      cases hk
    · exact hended session hstep hnil
  | cons step steps ih =>
    rcases step_cases hs with ⟨step', session', hstep, hs', hlast, hrest⟩ | ⟨-, hnil⟩
    · rw [hrest] at hk
      exact hcontinued session session' step' hstep hlast hrest (ih hs' (List.cons.inj hk).2)
    · rw [hnil] at hk
      cases hk

/-- the outcomes of all the steps to the end -/
def Session.outcomes (session : Session) : List Outcome :=
  match _h : session.step with
  | (_, .ended ending) => [.ended ending]
  | (session', .continued step) => .continued step :: outcomes session'
termination_by session.run.ahead
decreasing_by exact ahead_step_lt _h

section

variable {session session' : Session} {step : Step} {ending : Ending}

theorem Session.finish_of_continued (h : session.step = (session', .continued step)) :
    session.finish = session'.finish := by
  rw [finish]
  split <;> rename_i he <;> cases h.symm.trans he
  rfl

theorem Session.finish_of_ended (h : session.step = (session', .ended ending)) :
    session.finish = (session', ending) := by
  rw [finish]
  split <;> rename_i he <;> cases h.symm.trans he
  rfl

theorem Session.trace_of_continued (h : session.step = (session', .continued step)) :
    session.trace = (session'.trace.1, step :: session'.trace.2.1, session'.trace.2.2) := by
  rw [trace]
  split <;> rename_i he <;> cases h.symm.trans he
  rfl

theorem Session.trace_of_ended (h : session.step = (session', .ended ending)) :
    session.trace = (session', [], ending) := by
  rw [trace]
  split <;> rename_i he <;> cases h.symm.trans he
  rfl

theorem Session.outcomes_of_continued (h : session.step = (session', .continued step)) :
    session.outcomes = .continued step :: session'.outcomes := by
  rw [outcomes]
  split <;> rename_i he <;> cases h.symm.trans he
  rfl

theorem Session.outcomes_of_ended (h : session.step = (session', .ended ending)) :
    session.outcomes = [.ended ending] := by
  rw [outcomes]
  split <;> rename_i he <;> cases h.symm.trans he
  rfl

end

/-- running to the end comes to the end of what is left, with its steps if they are kept -/
theorem Session.run_to_end {session : Session} (hs : session.Settled) :
    session.finish = (session.last, session.rest.ending) ∧
      session.trace = (session.last, session.rest.steps, session.rest.ending) ∧
      session.outcomes = session.rest.steps.map .continued ++ [.ended session.rest.ending] := by
  refine settled_induction ?_ ?_ hs
  · intro session hstep hnil
    rw [hnil]
    exact ⟨finish_of_ended hstep, trace_of_ended hstep, outcomes_of_ended hstep⟩
  · rintro session session' step hstep hlast hrest ⟨hf, ht, ho⟩
    rw [finish_of_continued hstep, trace_of_continued hstep, outcomes_of_continued hstep, hf, ht, ho, hlast, hrest]
    exact ⟨rfl, rfl, rfl⟩

end BitcoinScript
