/-
The phases of a run. Where a run stands is kept in several places side by side: in the phase, in the state with the
index of the next operation, in the ending, and in what was answered last. A step changes them together, and so do all
calls, since a call that is no reset is a number of steps.

Results:
- `State.next_within`: a step of the machine goes on to the next operation, or stands at the end, or fails where it is.
- `History.Stage.step`: a step leads from one stage of a run to the next, in all that is kept of it.
- `phase_agrees`: after any calls a session shows what belongs to one phase, and to that alone.
  - Not started: there is no state and no summary, and all the operations of the script are left, or none if it is none.
  - Running, at some index: the script is decoded, and the state stands at this index, past the first operation and at
    most at the end. There is no summary, the operations from the index on are left, and at most so many blocks are
    open.
  - Finished: the last answer was the end of the script. The state stands there, no block is open, and there is a
    summary without a failure.
  - Failed: the last answer was a failure, and there is a summary with that failure. There is no state if and only if
    the script is none.

  The index of the next operation is raised by one by each step that continues. Any more calls without a reset add
  outcomes, and raise the index by as many as of these are steps that continue; and if the phase was one of the last
  two, the run stays as it is.
-/
import Mathlib.Logic.ExistsUnique
import BitcoinScript.Proofs.Conditional.Balance

namespace BitcoinScript

/-! ## The machine -/

theorem execute_count_le {ctx : Context} {operation : Operation} {s s' : State} {action : Action}
    (h : execute ctx operation s = (s', .ok action)) : s'.branches.count ≤ s.branches.count + 1 := by
  have hlength := length_nest (execute_nest h)
  have hone : [operation].countP Operation.isOpener ≤ 1 := List.countP_le_length
  simp only [Branches.turned, List.length_map] at hlength
  simp only [Branches.count]
  omega

/-- a step of the machine goes on to the next operation, or stands at the end with all blocks closed, or fails -/
theorem State.next_within (ctx : Context) {s : State} (hlast : s.pc ≤ ctx.program.length)
    (hblocks : s.branches.count ≤ s.pc) :
    (∃ s' step, s.next ctx = (s', .continued step) ∧ s'.pc = s.pc + 1 ∧ s'.pc ≤ ctx.program.length ∧
        s'.branches.count ≤ s'.pc) ∨
      (s.next ctx = (s, .ended .endOfScript) ∧ s.pc = ctx.program.length ∧ s.branches.count = 0) ∨
      ∃ s' failure, s.next ctx = (s', .ended (.failed failure)) := by
  have hlength : ctx.program.operations.length = ctx.program.length := List.length_map _
  rcases next_cases ctx s with
    ⟨operation, s', action, hop, he, hn⟩ | ⟨_, s', failure, -, -, hn⟩ | ⟨hend, hb, hn⟩ | ⟨-, -, hn⟩
  · have hlt : s.pc < ctx.program.operations.length := (List.getElem?_eq_some_iff.1 hop).1
    have hpc : s'.advance.pc = s.pc + 1 := congrArg (· + 1) (execute_pc_eq he)
    have hcount : s'.branches.count ≤ s.branches.count + 1 := execute_count_le he
    have hblocks' : s'.advance.branches.count ≤ s.branches.count + 1 := hcount
    exact .inl ⟨s'.advance, _, hn, hpc, by omega, by omega⟩
  · exact .inr (.inr ⟨s', failure, hn⟩)
  · exact .inr (.inl ⟨hn, by omega, hb⟩)
  · exact .inr (.inr ⟨s, _, hn⟩)

/-! ## The stages of a run -/

theorem Run.step_decoded (spend : Option Spend) (strict : Bool) (program : Program) (state? : Option State)
    (phase : Phase) :
    Run.step spend strict ⟨.ok program, state?, phase, none⟩ =
      match (state?.getD .initial).next ⟨program, spend, strict⟩ with
      | (s, .continued step) => (⟨.ok program, some s, .running s.pc, none⟩, .continued step)
      | (s, .ended ending) => (⟨.ok program, some s, ending.phase, some ending⟩, .ended ending) := by
  rcases hn : (state?.getD .initial).next ⟨program, spend, strict⟩ with ⟨s, st | ending⟩ <;>
    simp only [step, next, hn, begin_script, begin_ending?]

/-- all that is kept of a run, by the stage it has come to -/
inductive History.Stage (h : History) : Prop where
  | notStarted (hrun : h.session.run = ⟨Program.decode h.script, none, .notStarted, none⟩)
  | running (program : Program) (s : State) (hscript : Program.decode h.script = .ok program)
      (hrun : h.session.run = ⟨.ok program, some s, .running s.pc, none⟩) (hfirst : 1 ≤ s.pc)
      (hlast : s.pc ≤ program.length) (hblocks : s.branches.count ≤ s.pc)
  | finished (program : Program) (s : State) (hscript : Program.decode h.script = .ok program)
      (hrun : h.session.run = ⟨.ok program, some s, .finished, some .endOfScript⟩)
      (hlog : h.log.getLast? = some (.ended .endOfScript)) (hlast : s.pc = program.length)
      (hblocks : s.branches.count = 0)
  /-- at an operation, or for blocks that are open at the end -/
  | failed (program : Program) (s : State) (failure : Failure) (hscript : Program.decode h.script = .ok program)
      (hrun : h.session.run = ⟨.ok program, some s, .failed, some (.failed failure)⟩)
      (hlog : h.log.getLast? = some (.ended (.failed failure)))
  /-- before the first operation, because the script is none -/
  | refused (failure : Failure) (hscript : Program.decode h.script = .error failure)
      (hrun : h.session.run = ⟨.error failure, none, .failed, some (.failed failure)⟩)
      (hlog : h.log.getLast? = some (.ended (.failed failure)))

theorem History.call_step_run (h : History) :
    (h.call .step).session.run = (h.session.run.step h.session.spend h.session.strict).1 := rfl

theorem History.call_step_log (h : History) :
    (h.call .step).log = h.log ++ [(h.session.run.step h.session.spend h.session.strict).2] := rfl

theorem History.Stage.of_decoded {h : History} {program : Program} {state? : Option State} {phase : Phase}
    (hscript : Program.decode h.script = .ok program) (hrun : h.session.run = ⟨.ok program, state?, phase, none⟩)
    (hlast : (state?.getD .initial).pc ≤ program.length)
    (hblocks : (state?.getD .initial).branches.count ≤ (state?.getD .initial).pc) : (h.call .step).Stage := by
  have hstep := Run.step_decoded h.session.spend h.session.strict program state? phase
  rw [← hrun] at hstep
  rcases State.next_within ⟨program, h.session.spend, h.session.strict⟩ hlast hblocks with
    ⟨s', step, hn, hpc, hlast', hblocks'⟩ | ⟨hn, hend, hclosed⟩ | ⟨s', failure, hn⟩
  · rw [hn] at hstep
    refine .running program s' hscript ?_ (by omega) hlast' hblocks'
    rw [call_step_run, hstep]
  · rw [hn] at hstep
    refine .finished program _ hscript ?_ ?_ hend hclosed
    · rw [call_step_run, hstep]
      rfl
    · rw [call_step_log, hstep, List.getLast?_concat]
  · rw [hn] at hstep
    refine .failed program s' failure hscript ?_ ?_
    · rw [call_step_run, hstep]
      rfl
    · rw [call_step_log, hstep, List.getLast?_concat]

theorem History.Stage.of_ended {h : History} {ending : Ending} (hend : h.session.run.ending? = some ending) :
    (h.call .step).session.run = h.session.run ∧ (h.call .step).log.getLast? = some (.ended ending) := by
  have hstep : h.session.step = (h.session, .ended ending) := (Session.step_of_ending_some hend).1
  constructor
  · show h.session.step.1.run = _
    rw [hstep]
  · show (h.log ++ [h.session.step.2]).getLast? = _
    rw [hstep, List.getLast?_concat]

/-- a step leads from one stage to the next, and stays at the last ones -/
theorem History.Stage.step {h : History} (hs : h.Stage) : (h.call .step).Stage := by
  cases hs with
  | notStarted hrun =>
    cases hscript : Program.decode h.script with
    | ok program =>
      rw [hscript] at hrun
      exact of_decoded hscript hrun (Nat.zero_le _) (Nat.zero_le _)
    | error failure =>
      rw [hscript] at hrun
      refine .refused failure hscript ?_ ?_
      · rw [call_step_run, hrun]
        rfl
      · rw [call_step_log, hrun, List.getLast?_concat]
        rfl
  | running program s hscript hrun hfirst hlast hblocks => exact of_decoded hscript hrun hlast hblocks
  | finished program s hscript hrun hlog hlast hblocks =>
    obtain ⟨hrun', hlog'⟩ := of_ended (h := h) (by rw [hrun])
    exact .finished program s hscript (hrun'.trans hrun) hlog' hlast hblocks
  | failed program s failure hscript hrun hlog =>
    obtain ⟨hrun', hlog'⟩ := of_ended (h := h) (by rw [hrun])
    exact .failed program s failure hscript (hrun'.trans hrun) hlog'
  | refused failure hscript hrun hlog =>
    obtain ⟨hrun', hlog'⟩ := of_ended (h := h) (by rw [hrun])
    exact .refused failure hscript (hrun'.trans hrun) hlog'

theorem History.stage (script : Bytes) (spend : Option Spend) (strict : Bool) (calls : List Call) :
    ((History.new script spend strict).calls calls).Stage :=
  invariant (fun _ hs => hs.step) (fun _ _ _ _ => .notStarted rfl) (.notStarted rfl) calls

/-! ## What a session shows -/

/-- what belongs to a phase: the phase itself, and with it the state, the summary, the operations that are left and what
was answered last -/
def History.Shows (h : History) (phase : Phase) : Prop :=
  let run := h.session.run
  run.phase = phase ∧
    match phase with
    | .notStarted =>
      run.state? = none ∧ run.result? = none ∧
        run.remaining = ((Program.decode h.script).toOption.map Program.operations).getD []
    | .running pc =>
      ∃ program s, Program.decode h.script = .ok program ∧ run.state? = some s ∧ s.pc = pc ∧ 1 ≤ pc ∧
        pc ≤ program.length ∧ run.result? = none ∧ run.remaining = program.operations.drop pc ∧
        s.branches.count ≤ pc
    | .finished =>
      ∃ program s result, Program.decode h.script = .ok program ∧ run.state? = some s ∧
        h.log.getLast? = some (.ended .endOfScript) ∧ s.pc = program.length ∧ s.branches.count = 0 ∧
        run.result? = some result ∧ result.failure = none
    | .failed =>
      ∃ failure result, h.log.getLast? = some (.ended (.failed failure)) ∧ run.result? = some result ∧
        result.failure = some failure ∧
        (run.state? = none ↔ ∃ refusal, Program.decode h.script = .error refusal)

/-- what is shown is what belongs to the phase -/
theorem History.Stage.shows {h : History} (hs : h.Stage) : h.Shows h.session.run.phase := by
  refine ⟨rfl, ?_⟩
  cases hs with
  | notStarted hrun =>
    rw [hrun]
    refine ⟨rfl, rfl, ?_⟩
    cases hscript : Program.decode h.script <;> simp [Run.remaining, Except.toOption]
  | running program s hscript hrun hfirst hlast hblocks =>
    rw [hrun]
    exact ⟨program, s, hscript, rfl, rfl, hfirst, hlast, rfl, rfl, hblocks⟩
  | finished program s hscript hrun hlog hlast hblocks =>
    rw [hrun]
    exact ⟨program, s, _, hscript, rfl, hlog, hlast, hblocks, rfl, rfl⟩
  | failed program s failure hscript hrun hlog =>
    rw [hrun]
    refine ⟨failure, _, hlog, rfl, rfl, ?_⟩
    simp [hscript]
  | refused failure hscript hrun hlog =>
    rw [hrun]
    refine ⟨failure, _, hlog, rfl, rfl, ?_⟩
    simp [hscript]

theorem History.Stage.existsUnique_shows {h : History} (hs : h.Stage) : ∃! phase, h.Shows phase :=
  ⟨h.session.run.phase, hs.shows, fun _ hphase => hphase.1.symm⟩

/-! ## Going forward -/

/-- the index of the next operation; before the first step, that of the first one -/
def Run.place (run : Run) : Nat :=
  run.state?.elim 0 State.pc

/-- whether an outcome is a step that was carried out -/
def Outcome.isContinued : Outcome → Bool
  | .continued _ => true
  | .ended _ => false

/-- a step of the machine moves on by one operation if it continues, and stays where it is if not -/
theorem State.pc_next (ctx : Context) (s : State) :
    (s.next ctx).1.pc = s.pc + [(s.next ctx).2].countP Outcome.isContinued := by
  rcases next_cases ctx s with ⟨_, s', _, -, he, hn⟩ | ⟨_, s', _, -, he, hn⟩ | ⟨-, -, hn⟩ | ⟨-, -, hn⟩ <;> rw [hn]
  · exact congrArg (· + 1) (execute_pc_eq he)
  · exact execute_pc_eq he
  · rfl
  · rfl

theorem Run.place_step (spend : Option Spend) (strict : Bool) (run : Run) :
    (run.step spend strict).1.place = run.place + [(run.step spend strict).2].countP Outcome.isContinued := by
  obtain ⟨failure | program, state?, phase, _ | ending⟩ := run
  · rfl
  · rfl
  · have hbefore : place ⟨.ok program, state?, phase, none⟩ = (state?.getD .initial).pc := by
      cases state? <;> rfl
    have hpc := State.pc_next ⟨program, spend, strict⟩ (state?.getD .initial)
    rw [step_decoded, hbefore]
    rcases hn : (state?.getD .initial).next ⟨program, spend, strict⟩ with ⟨s, step | ending⟩ <;> rw [hn] at hpc <;>
      exact hpc
  · rfl

/-- the index of the next operation is the number of steps that were carried out -/
theorem History.place_calls {h : History} (hplace : h.session.run.place = h.log.countP Outcome.isContinued)
    (calls : List Call) : (h.calls calls).session.run.place = (h.calls calls).log.countP Outcome.isContinued := by
  refine invariant (P := fun h => h.session.run.place = h.log.countP Outcome.isContinued) ?_ ?_ hplace calls
  · intro h hplace
    rw [call_step_run, call_step_log, Run.place_step, hplace, List.countP_append]
  · intro h script spend hplace
    rfl

/-- until a reset, outcomes are only added, and a run that has ended stays as it is -/
theorem History.forward (h : History) {more : List Call} (hmore : ∀ call ∈ more, call.isReset = false) :
    h.log <+: (h.calls more).log ∧
      (h.session.run.ending? ≠ none → (h.calls more).session.run = h.session.run) := by
  let Forward (h' : History) : Prop :=
    h.log <+: h'.log ∧ (h.session.run.ending? ≠ none → h'.session.run = h.session.run)
  have hstep : ∀ h', Forward h' → Forward (h'.call .step) := by
    intro h' hf
    refine ⟨hf.1.trans (List.prefix_append _ _), fun hend => ?_⟩
    obtain ⟨ending, hending⟩ := Option.ne_none_iff_exists'.1 hend
    rw [(Stage.of_ended ((congrArg Run.ending? (hf.2 hend)).trans hending)).1, hf.2 hend]
  exact calls_invariant hstep (h := h) ⟨List.prefix_refl _, fun _ => rfl⟩ hmore

theorem History.Stage.ending_of_phase {h : History} (hs : h.Stage)
    (hphase : h.session.run.phase = .finished ∨ h.session.run.phase = .failed) : h.session.run.ending? ≠ none := by
  cases hs with
  | notStarted hrun | running _ _ _ hrun _ _ _ =>
    rw [hrun] at hphase
    simp at hphase
  | finished _ _ _ hrun | failed _ _ _ _ hrun | refused _ _ hrun =>
    rw [hrun]
    simp

/-- **A session agrees with its phase.** After any calls on a session, what it shows belongs to one phase, and to that
alone. Each step that continues raises the index of the next operation by one; and calls without a reset only add
outcomes, and leave a run that has ended as it is. -/
theorem phase_agrees (script : Bytes) (spend : Option Spend) (strict : Bool) (calls : List Call) :
    let h := (History.new script spend strict).calls calls
    let run := h.session.run
    (∃! phase, h.Shows phase) ∧
      (∀ session' step, h.session.step = (session', .continued step) → session'.run.place = run.place + 1) ∧
      ∀ more : List Call, (∀ call ∈ more, call.isReset = false) →
        let after := h.calls more
        (∃ outcomes, after.log = h.log ++ outcomes ∧
          after.session.run.place = run.place + outcomes.countP Outcome.isContinued) ∧
        (run.phase = .finished ∨ run.phase = .failed → after.session.run = run) := by
  intro h run
  have hstage : h.Stage := History.stage script spend strict calls
  refine ⟨hstage.existsUnique_shows, ?_, ?_⟩
  · intro session' step hstep
    have hplace : h.session.step.1.run.place = run.place + [h.session.step.2].countP Outcome.isContinued :=
      run.place_step h.session.spend h.session.strict
    rw [hstep] at hplace
    exact hplace
  · intro more hmore after
    obtain ⟨⟨outcomes, hlog⟩, hrun⟩ := h.forward hmore
    refine ⟨⟨outcomes, hlog.symm, ?_⟩, fun hphase => hrun (hstage.ending_of_phase hphase)⟩
    have hbefore : run.place = h.log.countP Outcome.isContinued := History.place_calls rfl calls
    have hafter : after.session.run.place = after.log.countP Outcome.isContinued := History.place_calls hbefore more
    rw [hafter, hbefore, ← List.countP_append, hlog]

/-- two pushes: one step, then all that is left, and a step after the end -/
theorem phase_agrees_pushes :
    let h := (History.new [0x51, 0x52] none false).calls [.step]
    let after := h.calls [.finish, .step]
    h.Shows (.running 1) ∧
      (∃ outcomes, after.log = h.log ++ outcomes ∧
        after.session.run.place = h.session.run.place + outcomes.countP Outcome.isContinued) ∧
      after.session.run.place = 2 ∧ after.Shows .finished := by
  intro h after
  obtain ⟨⟨phase, hshows, -⟩, -, hforward⟩ := phase_agrees [0x51, 0x52] none false [.step]
  obtain ⟨hlog, -⟩ := hforward [.finish, .step] (by decide)
  obtain ⟨⟨phase', hshows', -⟩, -⟩ := phase_agrees [0x51, 0x52] none false [.step, .finish, .step]
  have hphase : phase = .running 1 := hshows.1.symm.trans (by decide +kernel)
  have hphase' : phase' = .finished := hshows'.1.symm.trans (by decide +kernel)
  rw [hphase] at hshows
  rw [hphase'] at hshows'
  exact ⟨hshows, hlog, by decide +kernel, hshows'⟩

end BitcoinScript
