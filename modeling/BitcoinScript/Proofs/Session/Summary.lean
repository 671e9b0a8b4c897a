/-
What is said of a run that has ended. The operation that it failed at is not kept: the summary finds it from the place
where the state stands, and so rests on a failure never moving on, on the end of the script being no operation, and on
the operations lying where decoding put them. The document of a run holds the summary as it is.

Results:
- `Opcode.Writes`: the opcode that an operation of a script is written with, which is only one.
- `Program.name_of_writes`: the name of an operation is that of the opcode it is written with.
- `Context.failsAt_iff`: a failed run stands at an operation if and only if this is what failed.
- `RunResult.written_toJson`: the document of a summary has the fields of the summary, and nothing else.
- `run_summary`: so the summary, and the document with it, tell of any run how it ended and where. After any calls on a
  session,
  - there is a summary if and only if the ending is among the outcomes, and it tells of a run that came through as many
    operations as outcomes are steps that continue (`RunResult.Tells`);
  - it says success if and only if the script was run to its end and left an item on top of the main stack whose value
    in signed magnitude is not zero;
  - it names an opcode if and only if the run failed at the operation with that number, and this is the name of the only
    opcode that the operation is written with; it names none after the end of the script, for a script that is refused,
    and for blocks that are left open;
  - the document of the run has the summary that the session has after it; it has the transaction id and the index of
    the input if and only if a transaction is bound, and the script in hexadecimal and as a text if and only if the
    script is decoded.
-/
import BitcoinScript.Proofs.Decoding.Concatenation
import BitcoinScript.Proofs.Number.Codec
import BitcoinScript.Proofs.Session.Taxonomy

namespace BitcoinScript

/-! ## The opcode of an operation -/

/-- operation number `k` of a script is written with this opcode: `k` whole operations stand before it, its bytes begin
with the opcode, and after it whole operations follow to the end of the script -/
def Opcode.Writes (op : Opcode) (script : Bytes) (k : Nat) : Prop :=
  ∃ (before : List Piece) (piece : Piece) (after : List Piece) (more : Bytes),
    script = Piece.bytes (before ++ piece :: after) ∧ before.length = k ∧ piece.raw = op.byte :: more

namespace Program

variable {script : Bytes} {program : Program} {k : Nat}

theorem exists_writes (h : decode script = .ok program) (hk : k < program.length) :
    ∃ op : Opcode, op.Writes script k := by
  obtain ⟨pieces, rfl, -, -, rfl⟩ := pieces_of_decode h
  rw [length, Piece.length_layOut] at hk
  obtain ⟨byte, more, hraw⟩ := List.exists_cons_of_ne_nil pieces[k].written.raw_ne_nil
  refine ⟨⟨byte⟩, pieces.take k, pieces[k], pieces.drop (k + 1), more, ?_, ?_, hraw⟩
  · rw [← List.drop_eq_getElem_cons hk, List.take_append_drop]
  · rw [List.length_take, Nat.min_eq_left (Nat.le_of_lt hk)]

/-- the name of an operation is that of the opcode it is written with -/
theorem name_of_writes (h : decode script = .ok program) {op : Opcode} (hop : op.Writes script k) :
    program.name k = if op.byte = 0 then "OP_0" else op.name := by
  obtain ⟨pieces, hscript, -, -, rfl⟩ := pieces_of_decode h
  obtain ⟨before, piece, after, more, hscript', rfl, hraw⟩ := hop
  cases Piece.eq_of_bytes_eq (hscript.symm.trans hscript')
  have hget : (Piece.layOut 0 (before ++ piece :: after))[before.length]? =
      some ⟨0 + (Piece.bytes before).length, piece.raw, piece.operation⟩ := by
    rw [Piece.layOut_append, List.getElem?_append_right (Nat.le_of_eq (Piece.length_layOut 0 before)),
      Piece.length_layOut, Nat.sub_self]
    rfl
  simp only [name, hget, Chunk.name, hraw, Opcode.leadName]

end Program

/-- no operation is written with two opcodes -/
theorem Opcode.Writes.unique {script : Bytes} {k : Nat} {op op' : Opcode} (h : op.Writes script k)
    (h' : op'.Writes script k) : op' = op := by
  obtain ⟨before, piece, after, more, rfl, rfl, hraw⟩ := h
  obtain ⟨before', piece', after', more', hscript, hlength, hraw'⟩ := h'
  obtain ⟨-, hrest⟩ := List.append_inj (Piece.eq_of_bytes_eq hscript) hlength.symm
  cases (List.cons.inj hrest).1
  have hbyte : op'.byte = op.byte := (List.cons.inj (hraw'.symm.trans hraw)).1
  cases op
  cases op'
  cases hbyte
  rfl

/-! ## Where a run failed -/

/-- a run that has failed stands at an operation if and only if this is what failed -/
theorem Context.failsAt_iff {ctx : Context} {s s' : State} {failure : Failure} (hreach : ctx.reach s.pc = some s)
    (hn : s.next ctx = (s', .ended (.failed failure))) :
    ctx.FailsAt s'.pc failure ↔ s'.pc < ctx.program.length := by
  have hlength : ctx.program.operations.length = ctx.program.length := List.length_map _
  rw [(failsFrom_of_next hreach hn).pc_eq, ← hlength]
  constructor
  · rintro ⟨t, operation, -, hop, -⟩
    exact (List.getElem?_eq_some_iff.1 hop).1
  · intro hlt
    rcases State.next_cases ctx s with
      ⟨_, _, _, -, -, hn'⟩ | ⟨operation, t, failure', hop, he, hn'⟩ | ⟨-, -, hn'⟩ | ⟨hend, -, -⟩
    · cases hn.symm.trans hn'
    · cases hn.symm.trans hn'
      exact ⟨s, operation, hreach, hop, by rw [he]⟩
    · cases hn.symm.trans hn'
    · exact absurd hlt (Nat.not_lt.2 hend)

/-! ## The summary -/

/-- what a summary tells of the run of a script: that it came through `k` operations, and how and in which state it
ended -/
structure RunResult.Tells (result : RunResult) (script : Bytes) (spend : Option Spend) (strict : Bool) (k : Nat)
    (ending : Ending) (final? : Option State) : Prop where
  success_iff : result.success ↔ ending = .endOfScript ∧
    ∃ s top rest, final? = some s ∧ s.main = top :: rest ∧ Number.signedMagnitude top ≠ 0
  failure_iff : ∀ failure, result.failure = some failure ↔ ending = .failed failure
  finalStack_eq : result.finalStack = (final?.map State.main).getD []
  /-- there is an opcode if and only if the run failed at an operation -/
  opcode_iff : (∃ name, result.opcode = some name) ↔ ∃ program failure, Program.decode script = .ok program ∧
    ending = .failed failure ∧ Context.FailsAt ⟨program, spend, strict⟩ k failure
  /-- and it is the one that this operation is written with, where the byte zero is called after its value -/
  opcode_eq : ∀ name, result.opcode = some name → (∃! op : Opcode, op.Writes script k) ∧
    ∀ op : Opcode, op.Writes script k → name = if op.byte = 0 then "OP_0" else op.name
  opcode_none_iff : result.opcode = none ↔ ending = .endOfScript ∨ (∃ refusal, Program.decode script = .error refusal) ∨
    ∃ failure, ending = .failed failure ∧ failure.kind = .unbalancedIf

theorem Stack.isTrue_head?_iff (main : Stack) :
    (main.head?.map Number.isTrue).getD false ↔ ∃ top rest, main = top :: rest ∧ Number.signedMagnitude top ≠ 0 := by
  cases main with
  | nil => simp
  | cons top rest => simp [Number.isTrue_iff, Number.decode_eq_signedMagnitude]

namespace Run

variable (script : Bytes) (spend : Option Spend) (strict : Bool)

theorem tells_endOfScript (k : Nat) (program : Program) (s : State) :
    ∃ result, result? ⟨.ok program, some s, .finished, some .endOfScript⟩ = some result ∧
      result.Tells script spend strict k .endOfScript (some s) := by
  refine ⟨_, rfl, ?_, fun _ => iff_of_false nofun nofun, rfl, ?_, nofun, iff_of_true rfl (.inl rfl)⟩
  · rw [eq_self, true_and]
    refine (Stack.isTrue_head?_iff s.main).trans ⟨fun ⟨top, rest, h⟩ => ⟨s, top, rest, rfl, h⟩, ?_⟩
    rintro ⟨t, top, rest, ht, h⟩
    cases ht
    exact ⟨top, rest, h⟩
  · refine iff_of_false nofun ?_
    rintro ⟨_, _, -, h, -⟩
    cases h

theorem tells_refused {failure : Failure} (hrefused : Program.decode script = .error failure) (k : Nat) :
    ∃ result, result? ⟨.error failure, none, .failed, some (.failed failure)⟩ = some result ∧
      result.Tells script spend strict k (.failed failure) none := by
  refine ⟨_, rfl, iff_of_false nofun nofun, ?_, rfl, ?_, nofun, iff_of_true rfl (.inr (.inl ⟨failure, hrefused⟩))⟩
  · intro failure'
    rw [Option.some.injEq, Ending.failed.injEq]
  · refine iff_of_false nofun ?_
    rintro ⟨program, -, hp, -⟩
    cases hrefused.symm.trans hp

theorem tells_failed {program : Program} (hp : Program.decode script = .ok program) {s s' : State} {failure : Failure}
    (hreach : Context.reach ⟨program, spend, strict⟩ s.pc = some s)
    (hn : s.next ⟨program, spend, strict⟩ = (s', .ended (.failed failure))) :
    ∃ result, result? ⟨.ok program, some s', .failed, some (.failed failure)⟩ = some result ∧
      result.Tells script spend strict s'.pc (.failed failure) (some s') := by
  have hfails := Context.failsFrom_of_next hreach hn
  have hat := Context.failsAt_iff hreach hn
  have hfailed : ∀ failure', some failure = some failure' ↔ Ending.failed failure = .failed failure' := by
    intro failure'
    rw [Option.some.injEq, Ending.failed.injEq]
  by_cases hlt : s'.pc < program.length
  · -- at an operation
    have hopcode : opcode? ⟨.ok program, some s', .failed, some (.failed failure)⟩ = some (program.name s'.pc) :=
      if_pos hlt
    obtain ⟨op, hop⟩ := Program.exists_writes hp hlt
    refine ⟨_, rfl, iff_of_false nofun nofun, hfailed, rfl, ?_, ?_, ?_⟩
    · exact iff_of_true ⟨_, hopcode⟩ ⟨program, failure, hp, rfl, hat.2 hlt⟩
    · intro name hname
      refine ⟨⟨op, hop, fun _ hop' => hop.unique hop'⟩, fun op' hop' => ?_⟩
      rw [← Option.some.inj (hopcode.symm.trans hname), Program.name_of_writes hp hop']
    · refine iff_of_false (by rw [hopcode]; nofun) ?_
      rintro (h | ⟨refusal, h⟩ | ⟨failure', h, hk⟩)
      · cases h
      · cases hp.symm.trans h
      · cases h
        exact hfails.other.2 hlt hk
  · -- at the end, for blocks that are open
    have hopcode : opcode? ⟨.ok program, some s', .failed, some (.failed failure)⟩ = none := if_neg hlt
    refine ⟨_, rfl, iff_of_false nofun nofun, hfailed, rfl, ?_, ?_, ?_⟩
    · refine iff_of_false (by rw [hopcode]; nofun) ?_
      rintro ⟨program', failure', hp', h, hfailsAt⟩
      cases hp.symm.trans hp'
      cases h
      exact hlt (hat.1 hfailsAt)
    · intro name hname
      cases hopcode.symm.trans hname
    · refine iff_of_true hopcode (.inr (.inr ⟨failure, rfl, ?_⟩))
      exact Decidable.byContradiction fun hk => hlt (hfails.other.1 hk)

end Run

/-- the summary of a session that has ended tells of its run -/
theorem History.exists_tells (script : Bytes) (spend : Option Spend) (strict : Bool) (calls : List Call) :
    let h := (History.new script spend strict).calls calls
    let run := h.session.run
    ∀ ending, run.ending? = some ending → ∃ result, run.result? = some result ∧
      result.Tells h.script h.spend strict (h.log.countP Outcome.isContinued) ending run.state? := by
  intro h run ending hending
  have hplace : run.place = h.log.countP Outcome.isContinued := History.place_calls rfl calls
  rw [← hplace]
  cases History.stage script spend strict calls with
  | notStarted hrun | running _ _ _ hrun _ _ _ =>
    cases hending.symm.trans (congrArg Run.ending? hrun)
  | finished program s hscript hrun _ _ _ =>
    cases hending.symm.trans (congrArg Run.ending? hrun)
    simp only [run, h, hrun]
    exact Run.tells_endOfScript _ _ _ _ program s
  | failed program s' failure hscript hrun _ =>
    cases hending.symm.trans (congrArg Run.ending? hrun)
    have hstands := History.stands_of_decode hscript (congrArg Run.state? hrun)
    rw [hrun] at hstands
    cases hstands with
    | after hreach hn =>
      simp only [run, h, hrun]
      exact Run.tells_failed _ _ _ hscript hreach hn
  | refused failure hscript hrun _ =>
    cases hending.symm.trans (congrArg Run.ending? hrun)
    simp only [run, h, hrun]
    exact Run.tells_refused _ _ _ hscript _

/-! ## The document -/

/-- the member of an object with this key -/
def Json.get? (key : String) : Json → Option Json
  | .object members => members.lookup key
  | _ => none

theorem Json.lookup_cons (key key' : String) (value : Json) (members : List (String × Json)) :
    List.lookup key ((key', value) :: members) = if key = key' then some value else members.lookup key := by
  by_cases hkey : key = key'
  · rw [if_pos hkey, hkey, List.lookup_cons_self]
  · rw [if_neg hkey, List.lookup_cons, beq_false_of_ne hkey]

theorem Json.lookup_member? {α : Type} (key key' : String) (value : Option α) (write : α → Json) :
    (member? key' value write).lookup key = if key = key' then value.map write else none := by
  cases value with
  | none => exact (ite_self none).symm
  | some x => exact lookup_cons key key' (write x) []

/-- the document `summary` has the fields of a summary as its members, and no others: the failure by its message and its
kind, and the final stack as the items in hexadecimal, the top first -/
structure RunResult.Written (result : RunResult) (summary : Json) : Prop where
  success : summary.get? "success" = some (.bool result.success)
  opcode : summary.get? "opcode" = result.opcode.map .string
  error : summary.get? "error" = result.failure.map (fun failure => .string failure.message)
  errorKind : summary.get? "error_kind" = result.failure.map (fun failure => .string failure.kind.name)
  finalStack : summary.get? "final_stack" =
    some (.array (result.finalStack.map fun item => .string (Hex.encode item)))
  only : ∀ key, summary.get? key ≠ none → key ∈ ["success", "opcode", "error", "error_kind", "final_stack"]

theorem RunResult.get?_toJson (result : RunResult) (key : String) :
    result.toJson.get? key =
      if key = "success" then some (.bool result.success)
      else if key = "opcode" then result.opcode.map .string
      else if key = "error" then result.failure.map fun failure => .string failure.message
      else if key = "error_kind" then result.failure.map fun failure => .string failure.kind.name
      else if key = "final_stack" then some (.array (result.finalStack.map fun item => .string (Hex.encode item)))
      else none := by
  simp only [toJson, Json.get?, Stack.toJson, List.lookup_append, Json.lookup_cons, Json.lookup_member?,
    List.lookup_nil]
  split_ifs <;> simp_all

theorem RunResult.written_toJson (result : RunResult) : result.Written result.toJson where
  success := result.get?_toJson "success"
  opcode := result.get?_toJson "opcode"
  error := result.get?_toJson "error"
  errorKind := result.get?_toJson "error_kind"
  finalStack := result.get?_toJson "final_stack"
  only key hkey := by
    contrapose! hkey
    simp only [List.mem_cons, List.not_mem_nil, not_or, or_false] at hkey
    simp only [get?_toJson, hkey, if_false]

/-- the members of a document are the summary, and what there is of a spend and of a script -/
theorem Report.get?_toJson (report : Report) :
    report.toJson.get? "result" = report.result.map RunResult.toJson ∧
      report.toJson.get? "txid" = report.spend.map (fun spend => .string (Hex.encode spend.tx.txid.bytes.reverse)) ∧
      report.toJson.get? "input_index" = report.spend.map (fun spend => .number spend.index) ∧
      report.toJson.get? "script_hex" = report.program.map (fun program => .string (Hex.encode program.bytes)) ∧
      report.toJson.get? "script_asm" = report.program.map (fun program => .string (Assembly.text program.bytes)) ∧
      report.toJson.get? "steps" = some (.array (report.steps.map Step.toJson)) := by
  simp [toJson, Json.get?, TxId.text, List.lookup_append, Json.lookup_cons, Json.lookup_member?]

theorem Program.map_bytes_decode {α : Type} (script : Bytes) (f : Bytes → α) :
    (decode script).toOption.map (fun program => f program.bytes) = (decode script).toOption.map fun _ => f script := by
  cases hp : decode script with
  | error failure => rfl
  | ok program => exact congrArg (fun bytes => some (f bytes)) (of_decode hp).2.1

/-- the report of a session is of its run to the end, with the script and the spend that the session has -/
theorem History.report_eq (script : Bytes) (spend : Option Spend) (strict : Bool) (calls : List Call) :
    let h := (History.new script spend strict).calls calls
    let report := h.session.report.2
    report.result = (h.call .report).session.run.result? ∧ report.spend = h.spend ∧
      report.program = (Program.decode h.script).toOption ∧ ∃ ending, .ended ending ∈ (h.call .report).log := by
  intro h report
  have hfollows : h.Follows strict := (Follows.new script spend strict).calls calls
  have hafter : (h.call .report).Follows strict := hfollows.call .report
  refine ⟨rfl, hafter.spend_eq, congrArg Except.toOption hafter.script_eq, h.session.rest.ending, ?_⟩
  show _ ∈ h.log ++ h.session.outcomes
  rw [(Session.run_to_end hfollows.settled).2.2, ← List.append_assoc]
  exact List.mem_append_right _ List.mem_cons_self

/-- **The summary of a run.** After any calls, there is a summary if and only if the run has ended, and it tells how and
where; and the document of the run is written with this summary, and with the spend and the script that there are. -/
theorem run_summary (script : Bytes) (spend : Option Spend) (strict : Bool) (calls : List Call) :
    let h := (History.new script spend strict).calls calls
    let run := h.session.run
    (run.result? = none ↔ ∀ outcome ∈ h.log, outcome.isContinued) ∧
    (∀ ending, .ended ending ∈ h.log → ∃ result, run.result? = some result ∧
      result.Tells h.script h.spend strict (h.log.countP Outcome.isContinued) ending run.state?) ∧
    let after := h.call .report
    let document := h.session.report.2.toJson
    let program? := (Program.decode h.script).toOption
    (∃ ending result, .ended ending ∈ after.log ∧ after.session.run.result? = some result ∧
      result.Tells h.script h.spend strict (after.log.countP Outcome.isContinued) ending after.session.run.state? ∧
      ∃ summary, document.get? "result" = some summary ∧ result.Written summary) ∧
    document.get? "txid" = h.spend.map (fun spend => .string (Hex.encode spend.tx.txid.bytes.reverse)) ∧
    document.get? "input_index" = h.spend.map (fun spend => .number spend.index) ∧
    document.get? "script_hex" = program?.map (fun _ => .string (Hex.encode h.script)) ∧
    document.get? "script_asm" = program?.map (fun _ => .string (Assembly.text h.script)) := by
  intro h run
  have hended := History.ended_mem_log_iff script spend strict calls
  refine ⟨?_, fun ending hmem => History.exists_tells script spend strict calls ending ((hended ending).1 hmem), ?_⟩
  · constructor
    · intro hnone outcome hmem
      cases outcome with
      | continued step => rfl
      | ended ending =>
        obtain ⟨result, hresult, -⟩ := History.exists_tells script spend strict calls ending ((hended ending).1 hmem)
        cases hnone.symm.trans hresult
    · intro hall
      cases hending : run.ending? with
      | none => rw [Run.result?, hending, Option.map_none]
      | some ending => cases hall _ ((hended ending).2 hending)
  · intro after document program?
    obtain ⟨hresult, hspend, hprogram, ending, hmem⟩ := History.report_eq script spend strict calls
    obtain ⟨hgetResult, hgetTxid, hgetIndex, hgetHex, hgetAsm, -⟩ := h.session.report.2.get?_toJson
    have hafter : (History.new script spend strict).calls (calls ++ [.report]) = after := by
      rw [History.calls, List.foldl_append]
      rfl
    refine ⟨?_, ?_, ?_, ?_, ?_⟩
    · have hended' := History.ended_mem_log_iff script spend strict (calls ++ [.report])
      have htells := History.exists_tells script spend strict (calls ++ [.report])
      rw [hafter] at hended' htells
      obtain ⟨result, hsummary, htells⟩ := htells ending ((hended' ending).1 hmem)
      refine ⟨ending, result, hmem, hsummary, htells, result.toJson, ?_, result.written_toJson⟩
      rw [hgetResult, hresult, hsummary, Option.map_some]
    · rw [hgetTxid, hspend]
    · rw [hgetIndex, hspend]
    · rw [hgetHex, hprogram]
      exact Program.map_bytes_decode h.script fun bytes => Json.string (Hex.encode bytes)
    · rw [hgetAsm, hprogram]
      exact Program.map_bytes_decode h.script fun bytes => Json.string (Assembly.text bytes)

/-- a verify that fails for the false item before it, as the operation after two steps; its opcode is the only one that
this operation is written with, and the document of the run tells the same -/
theorem run_summary_verify :
    let input : Input := ⟨⟨⟨List.replicate 32 0, rfl⟩, 0⟩, [], 0, []⟩
    let spend : Spend := ⟨⟨1, [input], [], 0⟩, 0, Nat.zero_lt_one⟩
    let h := (History.new [0x51, 0x00, 0x69] (some spend) false).calls [.step, .finish]
    let failure : Failure := .within "OP_VERIFY" (.falseItem [])
    let result : RunResult := ⟨false, some failure, some "OP_VERIFY", [[], [0x01]]⟩
    let document := h.session.report.2.toJson
    .ended (.failed failure) ∈ h.log ∧ h.log.countP Outcome.isContinued = 2 ∧
      h.session.run.result? = some result ∧
      result.Tells [0x51, 0x00, 0x69] (some spend) false 2 (.failed failure) h.session.run.state? ∧
      (∃! op : Opcode, op.Writes [0x51, 0x00, 0x69] 2) ∧
      (∃ summary, document.get? "result" = some summary ∧
        summary.get? "success" = some (.bool false) ∧
        summary.get? "opcode" = some (.string "OP_VERIFY") ∧
        summary.get? "error" = some (.string "OP_VERIFY: top item <empty> is false") ∧
        summary.get? "error_kind" = some (.string "VerifyFailed") ∧
        summary.get? "final_stack" = some (.array [.string "", .string "01"])) ∧
      document.get? "txid" =
        some (.string "568e565e675242d05b7380d2e88808556f689e5639a717f7f6fe313fef62ad0b") ∧
      document.get? "input_index" = some (.number 0) ∧
      document.get? "script_hex" = some (.string "510069") ∧
      document.get? "script_asm" = some (.string "OP_PUSHNUM_1 OP_0 OP_VERIFY") := by
  intro input spend h failure result document
  have hmem : .ended (.failed failure) ∈ h.log := by decide +kernel
  have hcount : h.log.countP Outcome.isContinued = 2 := by decide +kernel
  have hresult : h.session.run.result? = some result := by decide +kernel
  have hafter : (h.call .report).session.run.result? = some result := by decide +kernel
  have hdecoded : (Program.decode h.script).toOption.map (fun _ => ()) = some () := by decide +kernel
  have htxid : Hex.encode spend.tx.txid.bytes.reverse =
      "568e565e675242d05b7380d2e88808556f689e5639a717f7f6fe313fef62ad0b" := by decide +kernel
  have hasm : Assembly.text h.script = "OP_PUSHNUM_1 OP_0 OP_VERIFY" := by decide +kernel
  obtain ⟨-, hends, ⟨_, result₁, -, hresult₁, -, summary, hsummary, hwritten⟩, hgetTxid, hgetIndex, hgetHex, hgetAsm⟩ :=
    run_summary [0x51, 0x00, 0x69] (some spend) false [.step, .finish]
  obtain ⟨result₂, hresult₂, htells⟩ := hends _ hmem
  cases hresult.symm.trans hresult₂
  cases hafter.symm.trans hresult₁
  have htells' : result.Tells [0x51, 0x00, 0x69] (some spend) false 2 (.failed failure) h.session.run.state? :=
    hcount ▸ htells
  obtain ⟨program, hprogram, -⟩ := Option.map_eq_some_iff.1 hdecoded
  rw [hprogram] at hgetHex hgetAsm
  refine ⟨hmem, hcount, hresult, htells', (htells'.opcode_eq _ rfl).1, ⟨summary, hsummary, hwritten.success,
    hwritten.opcode, hwritten.error, hwritten.errorKind, hwritten.finalStack⟩, ?_, hgetIndex, hgetHex, ?_⟩
  · exact hgetTxid.trans (congrArg (some ∘ Json.string) htxid)
  · exact hgetAsm.trans (congrArg (some ∘ Json.string) hasm)

end BitcoinScript
