/-
Runs that can be stopped and resumed. A session holds a script, refused or decoded, and the spend that signatures are
checked for. Between two steps it keeps the state of the run, which the first step makes, where the run stands, and how
it ended. `step` runs one operation; `finish` runs to the end; `trace` does so too and keeps the steps; `reset` starts
over with another script. An ending stays: after it, `step` only repeats it.

`ahead_step_lt` says that each step that continues comes nearer to the end of the script, which is why `finish` and
`trace` end.
-/
import BitcoinScript.Machine.Execute

namespace BitcoinScript

/-- an operation that was run -/
structure Step where
  pc : Nat
  /-- the name of the opcode that the operation was written with -/
  name : String
  action : Action
  /-- the main stack after it -/
  stack : Stack
  deriving DecidableEq

/-- how a run ends -/
inductive Ending where
  | endOfScript
  | failed (failure : Failure)
  deriving DecidableEq

/-- what one step of a run comes to -/
inductive Outcome where
  | continued (step : Step)
  | ended (ending : Ending)
  deriving DecidableEq

/-- where a run stands -/
inductive Phase where
  | notStarted
  /-- `pc` is the index of the operation to run next -/
  | running (pc : Nat)
  | finished
  | failed
  deriving DecidableEq

/-- where a run stands after it has ended -/
def Ending.phase : Ending → Phase
  | .endOfScript => .finished
  | .failed _ => .failed

/-- the run of a script, with what is kept of it between two steps -/
structure Run where
  /-- the decoded script, or why it is refused -/
  script : Except Failure Program
  /-- the state, from the first step of a decoded script on -/
  state? : Option State
  phase : Phase
  /-- how the run ended, if it has -/
  ending? : Option Ending

/-- a run that can be stopped and resumed -/
structure Session where
  strict : Bool
  spend : Option Spend
  run : Run

/-- the summary of a run that has ended -/
structure RunResult where
  /-- the script ran to its end and left a true item on top -/
  success : Bool
  failure : Option Failure
  /-- the name of the opcode that failed, if the run failed at one -/
  opcode : Option String
  finalStack : Stack
  deriving DecidableEq

/-- runs the next operation, or ends the run -/
def State.next (ctx : Context) (s : State) : State × Outcome :=
  match ctx.program.chunks[s.pc]? with
  | some chunk =>
    match execute ctx chunk.operation s with
    | (s', .ok action) => (s'.advance, .continued ⟨s.pc, chunk.name, action, s'.main⟩)
    | (s', .error failure) => (s', .ended (.failed failure))
  | none =>
    if s.branches.count = 0 then (s, .ended .endOfScript)
    else (s, .ended (.failed (.unclosedBlocks s.branches.count)))

namespace Run

/-- the run of a script before its first step -/
def load (bytes : Bytes) : Run :=
  ⟨Program.decode bytes, none, .notStarted, none⟩

/-- the decoded script -/
def program? (run : Run) : Option Program :=
  run.script.toOption

theorem script_of_program? {run : Run} {program : Program} (h : run.program? = some program) :
    run.script = .ok program := by
  unfold program? at h
  cases hs : run.script with
  | error failure =>
    rw [hs] at h
    cases h
  | ok program =>
    rw [hs] at h
    cases h
    rfl

/-- the operations that have not been run -/
def remaining (run : Run) : List Operation :=
  match run.script, run.phase with
  | .ok program, .notStarted => program.operations
  | .ok program, .running pc => program.operations.drop pc
  | _, _ => []

/-- the name of the opcode that the run stands at, if it stands at one -/
def opcode? (run : Run) : Option String :=
  match run.script, run.state? with
  | .ok program, some s => if s.pc < program.length then some (program.name s.pc) else none
  | _, _ => none

/-- the summary of the run, if it has ended -/
def result? (run : Run) : Option RunResult :=
  let finalStack := (run.state?.map (·.main)).getD []
  run.ending?.map fun
    | .endOfScript => ⟨(finalStack.head?.map Number.isTrue).getD false, none, none, finalStack⟩
    | .failed failure => ⟨false, some failure, run.opcode?, finalStack⟩

/-- the run, begun if it was not -/
def begin (run : Run) : Run :=
  if run.phase = .notStarted then { run with phase := .running 0 } else run

/-- goes on with the run, from its state or from a new one; an ending is not kept yet -/
def next (spend : Option Spend) (strict : Bool) (run : Run) : Run × Outcome :=
  match run.script with
  | .error failure => (run, .ended (.failed failure))
  | .ok program =>
    match (run.state?.getD .initial).next ⟨program, spend, strict⟩ with
    | (s, .continued step) => ({ run.begin with state? := some s, phase := .running s.pc }, .continued step)
    | (s, .ended ending) => ({ run.begin with state? := some s }, .ended ending)

/-- one step of the run -/
def step (spend : Option Spend) (strict : Bool) (run : Run) : Run × Outcome :=
  match run.ending? with
  | some ending => (run, .ended ending)
  | none =>
    match run.next spend strict with
    | (run, .continued step) => (run, .continued step)
    | (run, .ended ending) => ({ run with phase := ending.phase, ending? := some ending }, .ended ending)

/-- how many operations there are from the state on -/
def ahead (run : Run) : Nat :=
  match run.script with
  | .ok program => program.length - (run.state?.getD .initial).pc
  | .error _ => 0

end Run

namespace Session

/-- a session at the start of a script -/
def new (script : Bytes) (spend : Option Spend) (strict : Bool) : Session :=
  ⟨strict, spend, .load script⟩

/-- the session at the start of another script, and why that is refused, if it is -/
def reset (session : Session) (script : Bytes) (spend : Option Spend) : Session × Except Failure Unit :=
  let decoded := Program.decode script
  let run := { session.run with script := decoded, state? := none, phase := .notStarted, ending? := none }
  ({ session with spend, run }, decoded.map fun _ => ())

/-- one step of the run -/
def step (session : Session) : Session × Outcome :=
  let (run, outcome) := session.run.step session.spend session.strict
  ({ session with run }, outcome)

/-- the number of operations that have not been run -/
def left (session : Session) : Nat :=
  session.run.remaining.length

end Session

/-! ## A step that continues comes nearer to the end -/

theorem State.next_continued {ctx : Context} {s s' : State} {step : Step} (h : s.next ctx = (s', .continued step)) :
    s.pc < ctx.program.length ∧ s'.pc = s.pc + 1 := by
  unfold State.next at h
  split at h
  · rename_i chunk hc
    split at h
    · rename_i he
      cases h
      exact ⟨(List.getElem?_eq_some_iff.1 hc).1, congrArg (· + 1) (execute_pc_eq he)⟩
    · cases h
  · split at h <;> cases h

@[simp] theorem Run.begin_script (run : Run) : run.begin.script = run.script := by
  unfold begin
  split <;> rfl

@[simp] theorem Run.begin_ending? (run : Run) : run.begin.ending? = run.ending? := by
  unfold begin
  split <;> rfl

theorem Run.ahead_next_lt {spend : Option Spend} {strict : Bool} {run run' : Run} {step : Step}
    (h : run.next spend strict = (run', .continued step)) : run'.ahead < run.ahead := by
  cases hs : run.script with
  | error failure =>
    simp only [next, hs] at h
    cases h
  | ok program =>
    simp only [next, hs] at h
    split at h
    · rename_i s st hn
      obtain ⟨hlt, hpc⟩ := State.next_continued hn
      replace hlt : (run.state?.getD .initial).pc < program.length := hlt
      cases h
      simp only [ahead, begin_script, hs, Option.getD_some, hpc]
      omega
    · cases h

/-- a step that continues comes nearer to the end of the script -/
theorem Session.ahead_step_lt {session session' : Session} {step : Step}
    (h : session.step = (session', .continued step)) : session'.run.ahead < session.run.ahead := by
  cases he : session.run.ending? with
  | some ending =>
    simp only [Session.step, Run.step, he] at h
    cases h
  | none =>
    simp only [Session.step, Run.step, he] at h
    cases hn : session.run.next session.spend session.strict with
    | mk run outcome =>
      rw [hn] at h
      cases outcome with
      | continued st =>
        cases h
        exact Run.ahead_next_lt hn
      | ended ending => cases h

namespace Session

/-- runs to the end -/
def finish (session : Session) : Session × Ending :=
  match _h : session.step with
  | (session', .continued _) => finish session'
  | (session', .ended ending) => (session', ending)
termination_by session.run.ahead
decreasing_by exact ahead_step_lt _h

/-- runs to the end, and keeps the steps on the way -/
def trace (session : Session) : Session × List Step × Ending :=
  match _h : session.step with
  | (session', .ended ending) => (session', [], ending)
  | (session', .continued step) =>
    let (last, steps, ending) := trace session'
    (last, step :: steps, ending)
termination_by session.run.ahead
decreasing_by exact ahead_step_lt _h

end Session

end BitcoinScript
