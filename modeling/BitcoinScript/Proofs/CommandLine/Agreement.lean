/-
The command and the library. The command shows a run in one of two ways: it has the run traced and shows the report, or
it steps through the run itself and prints what it sees. Whichever it does, and whether it prints the steps or not, it
sees the one run of the session that its arguments ask for.

Results:
- `Arguments.asks_or_unusable`: arguments ask for a session, or there is a reason why they cannot be used.
- `walk_eq`: to step through a run is to trace it.
- `Session.exists_result_last`: at the end there is a summary, and it tells the ending.
- `openingLines_eq`, `stepLines_eq`, `closingLines_eq`: what is printed before the steps, for each step, and after them,
  word for word.
- `Arguments.Asks.exitCode_eq`, `Arguments.Asks.output_eq_report`, `Arguments.Asks.output_eq_lines`: so the exit code
  and what is printed are made of the answers of the session.
- `command_agrees`: and no flag changes more than it says. For any script text, transaction text, index of an input and
  flags,
  - the exit code does not depend on whether a report is printed, or the steps are left out;
  - it is 2 if and only if the script without the blanks around it is no hexadecimal text, or the transaction does not
    bind, and then nothing is printed; all other arguments ask for a session, which is a new one;
  - for the session that they ask for, it is 0 if the run ends with the script, and 1 if it fails;
  - with a report, its document is printed, which has the steps in the session's trace and the session's summary;
  - without one, the lines printed between the others are those of the steps in the session's trace, in their order, two
    lines a step, and the closing lines tell the session's summary;
  - where the steps are left out, the same text is printed without the lines of the steps.
-/
import BitcoinScript.Proofs.CommandLine.Lines
import BitcoinScript.Proofs.Session.Summary
import BitcoinScript.Proofs.Transaction.Binding

namespace BitcoinScript

/-! ## The end of a run -/

/-- the failure of an ending, if it is one -/
def Ending.failure? : Ending → Option Failure
  | .endOfScript => none
  | .failed failure => some failure

/-- at the end of a run there is a summary, with the failure that the run ended with -/
theorem Session.exists_result_last (session : Session) :
    ∃ result, session.last.run.result? = some result ∧ result.failure = session.rest.ending.failure? := by
  simp only [last, Run.result?, Option.map_some]
  cases session.rest.ending <;> exact ⟨_, rfl, rfl⟩

namespace CommandLine

/-! ## The session that is asked for -/

/-- the text of a transaction, if there is one, binds to a spend of its input -/
inductive Binds (input : Nat) : Option String → Option Spend → Prop where
  | none : Binds input none none
  | some {text : String} {spend : Spend} (h : Spend.ofText text input = .ok spend) :
      Binds input (some text) (some spend)

/-- the arguments ask for this session -/
def Arguments.Asks (args : Arguments) (session : Session) : Prop :=
  ∃ script spend?, Hex.decode (Text.trim args.script) = .ok script ∧ Binds args.input args.transaction spend? ∧
    session = .new script spend? args.strict

/-- the script is no hexadecimal text, or the transaction does not bind -/
def Arguments.Unusable (args : Arguments) : Prop :=
  (∃ e, Hex.decode (Text.trim args.script) = .error e) ∨
    ∃ text failure, args.transaction = some text ∧ Spend.ofText text args.input = .error failure

variable {args : Arguments} {session : Session}

/-- arguments that can be used ask for a session -/
theorem Arguments.asks_or_unusable (args : Arguments) : (∃ session, args.Asks session) ∨ args.Unusable := by
  cases hscript : Hex.decode (Text.trim args.script) with
  | error e => exact .inr (.inl ⟨e, hscript⟩)
  | ok script =>
    cases htext : args.transaction with
    | none => exact .inl ⟨_, script, none, hscript, htext ▸ .none, rfl⟩
    | some text =>
      cases hspend : Spend.ofText text args.input with
      | error failure => exact .inr (.inr ⟨text, failure, htext, hspend⟩)
      | ok spend => exact .inl ⟨_, script, some spend, hscript, htext ▸ .some hspend, rfl⟩

theorem Arguments.Asks.session_eq (h : args.Asks session) : args.session = .ok session := by
  obtain ⟨script, spend?, hscript, hbinds, rfl⟩ := h
  cases htext : args.transaction with
  | none =>
    rw [htext] at hbinds
    cases hbinds
    simp only [Arguments.session, hscript, htext]
    rfl
  | some text =>
    rw [htext] at hbinds
    cases hbinds with
    | some hspend =>
      simp only [Arguments.session, hscript, htext, hspend]
      rfl

theorem Arguments.Asks.settled (h : args.Asks session) : session.Settled := by
  obtain ⟨script, spend?, -, -, rfl⟩ := h
  exact .inl rfl

theorem Arguments.Asks.oneLine_name (h : args.Asks session) : ∀ step ∈ session.rest.steps, OneLine step.name := by
  obtain ⟨script, spend?, -, -, rfl⟩ := h
  rw [Session.rest_new]
  exact Reference.oneLine_name_of script spend? args.strict

theorem Arguments.Unusable.session_eq (h : args.Unusable) : ∃ message, args.session = .error message := by
  cases hscript : Hex.decode (Text.trim args.script) with
  | error e =>
    refine ⟨s!"invalid script hex: {e.message}", ?_⟩
    simp only [Arguments.session, hscript]
    rfl
  | ok script =>
    rcases h with ⟨e, he⟩ | ⟨text, failure, htext, hspend⟩
    · cases hscript.symm.trans he
    · refine ⟨failure.text, ?_⟩
      simp only [Arguments.session, hscript, htext, hspend]
      rfl

/-! ## Stepping through -/

section

variable {session' : Session} {quiet : Bool} {step : Step} {ending : Ending}

theorem walk_of_continued (h : session.step = (session', .continued step)) :
    walk quiet session =
      ((walk quiet session').1, (if quiet then [] else stepLines step) ++ (walk quiet session').2.1,
        (walk quiet session').2.2) := by
  rw [walk]
  split <;> rename_i he <;> cases h.symm.trans he
  rfl

theorem walk_of_ended (h : session.step = (session', .ended ending)) : walk quiet session = (session', [], ending) := by
  rw [walk]
  split <;> rename_i he <;> cases h.symm.trans he
  rfl

end

/-- to step through a run is to trace it, and to print the lines of its steps or none -/
theorem walk_eq (quiet : Bool) (hs : session.Settled) :
    walk quiet session =
      (session.last, if quiet then [] else session.rest.steps.flatMap stepLines, session.rest.ending) := by
  refine Session.settled_induction ?_ ?_ hs
  · intro session hstep hnil
    rw [walk_of_ended hstep, hnil]
    cases quiet <;> rfl
  · intro session session' step hstep hlast hrest ih
    rw [walk_of_continued hstep, ih, hlast, hrest]
    cases quiet <;> rfl

/-! ## What is printed -/

/-- the lines before the steps: the transaction, if one is bound, and a line between -/
def openingLines (session : Session) : List String :=
  let transaction (spend : Spend) : String :=
    let txid := Hex.encode spend.tx.txid.bytes.reverse
    s!"Transaction: {txid} (input {spend.index} of {spend.tx.inputs.length})"
  (session.spend.map transaction).toList ++ ["--------------------------------------------------"]

/-- the two lines of a step: its index at the right of four columns, its name at the left of twenty-four, and what it
did; and below them the stack -/
def linesOf (step : Step) : List String :=
  [String.ofList ((toString step.pc).toList.leftpad 4 ' ') ++ "  " ++ String.ofList (step.name.toList.rightpad 24 ' ')
      ++ " " ++ step.action.text,
    "      Stack: " ++ " ".intercalate (step.stack.map fun item => "<" ++ Hex.encode item ++ ">")]

/-- the lines after the steps, for a run with this summary: the failure, the final stack, the success, and the opcode
that failed, if there is one -/
def closingLines (result : RunResult) : List String :=
  ["--------------------------------------------------",
    match result.failure with
    | none => "End of script"
    | some failure => s!"Execution failed. {failure.kind.name}: {failure.message}",
    "Final stack: " ++ " ".intercalate (result.finalStack.map fun item => "<" ++ Hex.encode item ++ ">"),
    if result.success then "Success: true" else "Success: false"]
    ++ (result.opcode.map fun name => "Failed on opcode: " ++ name).toList

theorem alignRight_eq (width : Nat) (text : String) :
    alignRight width text = String.ofList (text.toList.leftpad width ' ') := by
  rw [alignRight, List.leftpad, String.ofList_append, String.length_toList, String.ofList_toList]

theorem alignLeft_eq (width : Nat) (text : String) :
    alignLeft width text = String.ofList (text.toList.rightpad width ' ') := by
  rw [alignLeft, List.rightpad, String.ofList_append, String.length_toList, String.ofList_toList]

theorem stepLines_eq : stepLines = linesOf := by
  funext step
  simp only [stepLines, linesOf, alignRight_eq, alignLeft_eq]
  rfl

theorem separator_eq : separator = "--------------------------------------------------" := by
  decide +kernel

theorem openingLines_eq (session : Session) :
    (session.spend.map spendLine).toList ++ [separator] = openingLines session := by
  rw [openingLines, separator_eq]
  rfl

theorem closingLines_eq {session : Session} {result : RunResult} (h : session.last.run.result? = some result) :
    [separator, endingLine session.rest.ending] ++ resultLines result = closingLines result := by
  obtain ⟨result', hresult', hfailure⟩ := session.exists_result_last
  obtain rfl : result = result' := Option.some.inj (h.symm.trans hresult')
  rw [closingLines, hfailure, separator_eq, resultLines]
  cases session.rest.ending <;> cases result.success <;> rfl

theorem exitCode_last (session : Session) :
    exitCode session.last = if session.rest.ending = .endOfScript then 0 else 1 := by
  cases hending : session.rest.ending <;> simp [exitCode, Session.last, hending, Ending.phase]

theorem Arguments.Unusable.respond_eq (h : args.Unusable) :
    (respond args).exitCode = 2 ∧ (respond args).output = "" := by
  obtain ⟨message, hsession⟩ := h.session_eq
  rw [respond, hsession]
  exact ⟨rfl, rfl⟩

/-- the exit code tells how the run of the session ends, in each of the ways to show it -/
theorem Arguments.Asks.exitCode_eq (h : args.Asks session) :
    (respond args).exitCode = if session.rest.ending = .endOfScript then 0 else 1 := by
  obtain ⟨-, htrace, -⟩ := Session.run_to_end h.settled
  rw [← exitCode_last, respond, h.session_eq]
  cases hjson : args.json with
  | true =>
    simp only [if_true]
    rw [respondWithReport, Session.report, htrace]
  | false =>
    simp only [Bool.false_eq_true, if_false]
    rw [respondWithSteps, walk_eq args.quiet h.settled]

/-- with a report, its document is printed -/
theorem Arguments.Asks.output_eq_report (h : args.Asks session) (hjson : args.json) :
    (respond args).output = session.report.2.toJson.pretty ++ "\n" := by
  rw [respond, h.session_eq]
  simp only [hjson, if_true]
  rfl

/-- without one, the lines of the steps are printed between others, unless they are left out -/
theorem Arguments.Asks.output_eq_lines (h : args.Asks session) (hjson : args.json = false) {result : RunResult}
    (hresult : session.last.run.result? = some result) :
    (respond args).output =
      String.join ((openingLines session ++ (if args.quiet then [] else session.rest.steps.flatMap linesOf) ++
        closingLines result).map (· ++ "\n")) := by
  rw [respond, h.session_eq]
  simp only [hjson, Bool.false_eq_true, if_false]
  rw [respondWithSteps, walk_eq args.quiet h.settled]
  simp only [hresult, Option.map_some, Option.getD_some, stepLines_eq]
  rw [← closingLines_eq hresult, ← openingLines_eq, unlines]
  simp only [List.append_assoc]

theorem exitCode_eq_two_iff : (respond args).exitCode = 2 ↔ args.Unusable := by
  refine ⟨fun hcode => ?_, fun h => h.respond_eq.1⟩
  rcases args.asks_or_unusable with ⟨session, h⟩ | h
  · rw [h.exitCode_eq] at hcode
    split at hcode <;> cases hcode
  · exact h

/-- the way to show the run is no matter for the exit code -/
theorem exitCode_flags (args : Arguments) (json quiet : Bool) :
    (respond { args with json, quiet }).exitCode = (respond args).exitCode := by
  rcases args.asks_or_unusable with ⟨session, h⟩ | h
  · have h' : Arguments.Asks { args with json, quiet } session := h
    rw [h.exitCode_eq, h'.exitCode_eq]
  · have h' : Arguments.Unusable { args with json, quiet } := h
    rw [h.respond_eq.1, h'.respond_eq.1]

theorem Arguments.Asks.report_eq (h : args.Asks session) :
    session.report.2 = session.last.reportOf session.rest.steps := by
  rw [Session.report, (Session.run_to_end h.settled).2.1]

/-- **The command agrees with the library.** The exit code and what is printed are those of the session that the
arguments ask for: the document of its report, or the lines of its steps between those that open and close them; and
`json` and `quiet` change no more than they say. -/
theorem command_agrees (args : Arguments) :
    (∀ json quiet, (respond { args with json, quiet }).exitCode = (respond args).exitCode) ∧
    ((respond args).exitCode = 2 ↔ args.Unusable) ∧
    (args.Unusable → (respond args).output = "") ∧
    (¬ args.Unusable → ∃ session, args.Asks session) ∧
    ∀ session, args.Asks session →
      let steps := session.trace.2.1
      let document := session.report.2.toJson
      let printed (lines : List String) : String := String.join (lines.map (· ++ "\n"))
      (respond args).exitCode = (if session.finish.2 = .endOfScript then 0 else 1) ∧
      (∀ quiet, (respond { args with json := true, quiet }).output = document.pretty ++ "\n") ∧
      document.get? "steps" = some (.array (steps.map fun step => .object
        [("action", .string step.action.text), ("op", .string step.name), ("pc", .number step.pc),
          ("stack", .array (step.stack.map fun item => .string (Hex.encode item)))])) ∧
      (∃ result summary, session.finish.1.run.result? = some result ∧
        document.get? "result" = some summary ∧ result.Written summary ∧
        (respond { args with json := false, quiet := false }).output =
          printed (openingLines session ++ steps.flatMap linesOf ++ closingLines result) ∧
        (respond { args with json := false, quiet := true }).output =
          printed (openingLines session ++ closingLines result)) ∧
      ∀ step ∈ steps, (linesOf step).length = 2 ∧ ∀ line ∈ linesOf step, OneLine line := by
  refine ⟨exitCode_flags args, exitCode_eq_two_iff, fun h => h.respond_eq.2, args.asks_or_unusable.resolve_right, ?_⟩
  intro session h steps document printed
  obtain ⟨hfinish, htrace, -⟩ := Session.run_to_end h.settled
  have hsteps : steps = session.rest.steps := congrArg (·.2.1) htrace
  have hdocument : document = (session.last.reportOf session.rest.steps).toJson := congrArg Report.toJson h.report_eq
  obtain ⟨result, hresult, -⟩ := session.exists_result_last
  obtain ⟨hgetResult, -, -, -, -, hgetSteps⟩ := (session.last.reportOf session.rest.steps).get?_toJson
  rw [hfinish, hsteps, hdocument]
  refine ⟨h.exitCode_eq, fun quiet => ?_, hgetSteps,
    ⟨result, result.toJson, hresult, ?_, result.written_toJson, ?_, ?_⟩, fun step hstep => ⟨rfl, ?_⟩⟩
  · have h' : Arguments.Asks { args with json := true, quiet } session := h
    rw [h'.output_eq_report rfl, h.report_eq]
  · rw [hgetResult, Session.reportOf, hresult, Option.map_some]
  · have h' : Arguments.Asks { args with json := false, quiet := false } session := h
    exact h'.output_eq_lines rfl hresult
  · have h' : Arguments.Asks { args with json := false, quiet := true } session := h
    rw [h'.output_eq_lines rfl hresult]
    simp only [if_true, List.append_nil, printed]
  · rw [← stepLines_eq]
    exact oneLine_stepLines (h.oneLine_name step hstep)

/-- a verify that fails for the item that is pushed before it, in each of the ways to show the run, and a script that is
half a byte too short -/
theorem command_agrees_verify :
    let input : Input := ⟨⟨⟨List.replicate 32 0, rfl⟩, 0⟩, [], 0, []⟩
    let spend : Spend := ⟨⟨1, [input], [], 0⟩, 0, Nat.zero_lt_one⟩
    let text := String.ofList (Hex.digits spend.tx.encode)
    let args : Arguments := ⟨" 510069 ", some text, 0, false, false, false⟩
    let printed (lines : List String) : String := String.join (lines.map (· ++ "\n"))
    let before := ["Transaction: 568e565e675242d05b7380d2e88808556f689e5639a717f7f6fe313fef62ad0b (input 0 of 1)",
      "--------------------------------------------------"]
    let steps := ["   0  OP_PUSHNUM_1             pushed number 1",
      "      Stack: <01>",
      "   1  OP_0                     pushed 0 byte(s): <empty>",
      "      Stack: <> <01>"]
    let after := ["--------------------------------------------------",
      "Execution failed. VerifyFailed: OP_VERIFY: top item <empty> is false",
      "Final stack: <> <01>",
      "Success: false",
      "Failed on opcode: OP_VERIFY"]
    let document := ["\x7b",
      "  \"input_index\": 0,",
      "  \"result\": \x7b",
      "    \"error\": \"OP_VERIFY: top item <empty> is false\",",
      "    \"error_kind\": \"VerifyFailed\",",
      "    \"final_stack\": [",
      "      \"\",",
      "      \"01\"",
      "    ],",
      "    \"opcode\": \"OP_VERIFY\",",
      "    \"success\": false",
      "  \x7d,",
      "  \"script_asm\": \"OP_PUSHNUM_1 OP_0 OP_VERIFY\",",
      "  \"script_hex\": \"510069\",",
      "  \"steps\": [",
      "    \x7b",
      "      \"action\": \"pushed number 1\",",
      "      \"op\": \"OP_PUSHNUM_1\",",
      "      \"pc\": 0,",
      "      \"stack\": [",
      "        \"01\"",
      "      ]",
      "    \x7d,",
      "    \x7b",
      "      \"action\": \"pushed 0 byte(s): <empty>\",",
      "      \"op\": \"OP_0\",",
      "      \"pc\": 1,",
      "      \"stack\": [",
      "        \"\",",
      "        \"01\"",
      "      ]",
      "    \x7d",
      "  ],",
      "  \"txid\": \"568e565e675242d05b7380d2e88808556f689e5639a717f7f6fe313fef62ad0b\"",
      "\x7d"]
    args.Asks (.new [0x51, 0x00, 0x69] (some spend) false) ∧ (respond args).exitCode = 1 ∧
      (respond args).output = printed (before ++ steps ++ after) ∧
      (respond { args with quiet := true }).output = printed (before ++ after) ∧
      (respond { args with json := true }).output = printed document ∧
      (respond { args with script := "51006" }).exitCode = 2 := by
  intro input spend text args printed before steps after document
  let session : Session := .new [0x51, 0x00, 0x69] (some spend) false
  have htrim : Text.trim " 510069 " = String.ofList ['5', '1', '0', '0', '6', '9'] := by decide +kernel
  have hscript : Hex.decode (Text.trim " 510069 ") = .ok [0x51, 0x00, 0x69] :=
    htrim ▸ Hex.decode_of_toLower (by decide +kernel)
  have hreadable : spend.tx.Readable :=
    ⟨⟨by decide, by decide, by decide, by decide⟩, by unfold Transaction.Reader.WitnessFits; decide⟩
  have hlower : (Hex.digits spend.tx.encode).map Char.toLower = Hex.digits spend.tx.encode := by decide +kernel
  have hspend : Spend.ofText text 0 = .ok spend := by
    have htext := Spend.ofText_ofList hlower (List.forall_mem_nil _) (List.forall_mem_nil _) 0
    rw [List.nil_append, List.append_nil] at htext
    exact htext.trans (Spend.ofBytes_eq_ok_iff.2 ⟨Transaction.decode_eq_ok_iff.2 ⟨hreadable, rfl⟩, rfl⟩)
  have hodd : (Text.trim "51006").utf8ByteSize % 2 = 1 := by decide +kernel
  have hasks : args.Asks session := ⟨[0x51, 0x00, 0x69], some spend, hscript, .some hspend, rfl⟩
  have hshort : Arguments.Unusable { args with script := "51006" } := .inl ⟨.oddLength, if_pos hodd⟩
  obtain ⟨-, -, -, -, hrun⟩ := command_agrees args
  obtain ⟨-, htwo, -⟩ := command_agrees { args with script := "51006" }
  obtain ⟨hcode, hreport, -, ⟨result, _, hresult, -, -, hlines, hquiet⟩, -⟩ := hrun session hasks
  have hfinish : session.finish.2 ≠ .endOfScript := by decide +kernel
  have hclosing : session.finish.1.run.result? =
      some ⟨false, some (.within "OP_VERIFY" (.falseItem [])), some "OP_VERIFY", [[], [0x01]]⟩ := by decide +kernel
  rw [if_neg hfinish] at hcode
  obtain rfl := Option.some.inj (hresult.symm.trans hclosing)
  exact ⟨hasks, hcode, hlines.trans (by decide +kernel), hquiet.trans (by decide +kernel),
    (hreport false).trans (by decide +kernel), htwo.2 hshort⟩

end CommandLine

end BitcoinScript
