/-
The command that runs a script and shows every step, as a function from its arguments to its texts and exit code. The
exit code is 0 for a run that ends with the script, 1 for one that fails, and 2 for arguments that cannot be used.

A run is shown in one of two ways: it is run to its end for a report, or it is stepped through, and each step is shown
as it comes.
-/
import BitcoinScript.Report

namespace BitcoinScript.CommandLine

/-- the arguments of the command -/
structure Arguments where
  /-- the script in hexadecimal -/
  script : String
  /-- the spending transaction in hexadecimal -/
  transaction : Option String
  /-- the index of the input that is spent -/
  input : Nat
  /-- whether numbers must be minimal -/
  strict : Bool
  /-- whether to print the report as a JSON document -/
  json : Bool
  /-- whether to leave out the steps -/
  quiet : Bool

/-- what the command prints, and how it exits -/
structure Response where
  exitCode : UInt8
  output : String
  errors : String
  deriving DecidableEq

/-- the session that the arguments ask for, or why they cannot be used -/
def Arguments.session (args : Arguments) : Except String Session := do
  let script ←
    match Hex.decode (Text.trim args.script) with
    | .ok script => pure script
    | .error e => throw s!"invalid script hex: {e.message}"
  let spend ←
    match args.transaction with
    | none => pure none
    | some text =>
      match Spend.ofText text args.input with
      | .ok spend => pure (some spend)
      | .error failure => throw failure.text
  return .new script spend args.strict

/-! ## The text of a run -/

/-- a text at the right end of a field -/
def alignRight (width : Nat) (text : String) : String :=
  String.ofList (List.replicate (width - text.length) ' ') ++ text

/-- a text at the left end of a field -/
def alignLeft (width : Nat) (text : String) : String :=
  text ++ String.ofList (List.replicate (width - text.length) ' ')

/-- the line between the parts of the text -/
def separator : String :=
  String.ofList (List.replicate 50 '-')

/-- the two lines of a step -/
def stepLines (step : Step) : List String :=
  [s!"{alignRight 4 (toString step.pc)}  {alignLeft 24 step.name} {step.action.text}",
    s!"      Stack: {step.stack.hexText}"]

/-- the line that names the spend -/
def spendLine (spend : Spend) : String :=
  s!"Transaction: {spend.tx.txid.text} (input {spend.index} of {spend.inputCount})"

/-- the line that tells how the run ended -/
def endingLine : Ending → String
  | .endOfScript => "End of script"
  | .failed failure => s!"Execution failed. {failure.text}"

/-- the lines of the summary -/
def resultLines (result : RunResult) : List String :=
  [s!"Final stack: {result.finalStack.hexText}", s!"Success: {result.success}"]
    ++ (result.opcode.map fun name => s!"Failed on opcode: {name}").toList

/-- lines, each with its end -/
def unlines (lines : List String) : String :=
  String.join (lines.map fun line => line ++ "\n")

/-! ## The two ways to show a run -/

/-- the exit code for a session that has run to its end -/
def exitCode (last : Session) : UInt8 :=
  if last.run.phase = .finished then 0 else 1

/-- a report as text -/
def reportText (report : Report) : String :=
  report.toJson.pretty ++ "\n"

/-- runs to the end, and shows the report -/
def respondWithReport (session : Session) : Response :=
  let (last, report) := session.report
  ⟨exitCode last, reportText report, ""⟩

/-- steps to the end, with the lines of each step that continues unless `quiet` -/
def walk (quiet : Bool) (session : Session) : Session × List String × Ending :=
  match _h : session.step with
  | (session', .continued step) =>
    let (last, lines, ending) := walk quiet session'
    (last, (if quiet then [] else stepLines step) ++ lines, ending)
  | (session', .ended ending) => (session', [], ending)
termination_by session.run.ahead
decreasing_by exact Session.ahead_step_lt _h

/-- steps to the end, and shows what was seen on the way and the summary -/
def respondWithSteps (quiet : Bool) (session : Session) : Response :=
  let (last, lines, ending) := walk quiet session
  ⟨exitCode last,
    unlines ((session.spend.map spendLine).toList ++ [separator] ++ lines ++ [separator, endingLine ending]
      ++ (last.run.result?.map resultLines).getD []), ""⟩

/-- what the command does -/
def respond (args : Arguments) : Response :=
  match args.session with
  | .error message => ⟨2, "", s!"ERROR: {message}\n"⟩
  | .ok session => if args.json then respondWithReport session else respondWithSteps args.quiet session

/-! ## Reading the arguments -/

/-- the wording of the expected arguments -/
def usage : String :=
  "usage: [--tx TRANSACTION] [--input INDEX] [--require-minimal] [--json] [--quiet] [--] SCRIPT"

/-- the value in an argument of the form name=value -/
def valueOf? (name : String) (argument : String) : Option String :=
  let start := name ++ "="
  if argument.startsWith start then some (argument.drop start.length).toString else none

/-- reads words into arguments, of which the script may still be missing -/
def read (args : Arguments) (script : Option String) : List String → Except String (Arguments × Option String)
  | [] => .ok (args, script)
  | "--json" :: words => read { args with json := true } script words
  | "--quiet" :: words => read { args with quiet := true } script words
  | "--require-minimal" :: words => read { args with strict := true } script words
  | "--tx" :: text :: words => read { args with transaction := some text } script words
  | "--input" :: text :: words =>
    match text.toNat? with
    | some input => read { args with input } script words
    | none => .error usage
  | "--" :: words =>
    match script, words with
    | none, [text] => .ok (args, some text)
    | some text, [] => .ok (args, some text)
    | _, _ => .error usage
  | word :: words =>
    match valueOf? "--tx" word, valueOf? "--input" word with
    | some text, _ => read { args with transaction := some text } script words
    | none, some text =>
      match text.toNat? with
      | some input => read { args with input } script words
      | none => .error usage
    | none, none =>
      if word.startsWith "-" || script.isSome then .error usage
      else read args (some word) words

/-- the arguments in the words of a command -/
def Arguments.ofWords (words : List String) : Except String Arguments := do
  match ← read ⟨"", none, 0, false, false, false⟩ none words with
  | (args, some script) => return { args with script }
  | (_, none) => throw usage

end BitcoinScript.CommandLine
