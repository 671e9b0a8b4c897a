/-
The report of a whole run as a JSON document: the script and the spend, if there are any, the steps, and the summary.
The members of every object stand in alphabetical order.
-/
import BitcoinScript.Json
import BitcoinScript.Script.Assembly
import BitcoinScript.Session

namespace BitcoinScript

/-- what is reported of a run -/
structure Report where
  program : Option Program
  spend : Option Spend
  steps : List Step
  result : Option RunResult

/-- a stack, its items in hexadecimal with the top first -/
def Stack.toJson (stack : Stack) : Json :=
  .array (stack.map fun item => .string (Hex.encode item))

/-- a member that is there only if its value is -/
def Json.member? {α : Type} (key : String) (value : Option α) (write : α → Json) : List (String × Json) :=
  (value.map fun x => (key, write x)).toList

/-- a step -/
def Step.toJson (step : Step) : Json :=
  .object [("action", .string step.action.text), ("op", .string step.name), ("pc", .number step.pc),
    ("stack", step.stack.toJson)]

/-- a summary -/
def RunResult.toJson (result : RunResult) : Json :=
  .object (
    Json.member? "error" result.failure (fun failure => .string failure.message)
      ++ Json.member? "error_kind" result.failure (fun failure => .string failure.kind.name)
      ++ [("final_stack", result.finalStack.toJson)]
      ++ Json.member? "opcode" result.opcode .string
      ++ [("success", .bool result.success)])

namespace Report

/-- the document of a report -/
def toJson (report : Report) : Json :=
  .object (
    Json.member? "input_index" report.spend (fun spend => .number spend.index)
      ++ Json.member? "result" report.result RunResult.toJson
      ++ Json.member? "script_asm" report.program (fun program => .string (Assembly.text program.bytes))
      ++ Json.member? "script_hex" report.program (fun program => .string (Hex.encode program.bytes))
      ++ [("steps", .array (report.steps.map Step.toJson))]
      ++ Json.member? "txid" report.spend (fun spend => .string spend.tx.txid.text))

end Report

/-- the report of a session that has ended, with the steps that led there -/
def Session.reportOf (last : Session) (steps : List Step) : Report :=
  ⟨last.run.program?, last.spend, steps, last.run.result?⟩

/-- runs to the end, and reports the steps of this call -/
def Session.report (session : Session) : Session × Report :=
  let (last, steps, _) := session.trace
  (last, last.reportOf steps)

end BitcoinScript
