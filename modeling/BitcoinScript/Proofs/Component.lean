/-
What an operation may touch. Every instruction has the whole state at hand, but each part of the state is moved by a few
opcodes alone: the open blocks by those that open, turn and close them, the second stack by the two that move an item
between the stacks, the start of the script code by the separator. None moves the index of the next operation, and what
is skipped touches neither stack.

Results:
- `Operation.Frame`: which part of the state may differ after which operation; `execute_frame`: no other part does.
- `State.codeStart_le_next`, `History.codeStart_le_calls`: the start of the script code is never moved back.
- `execute_toAlt`, `execute_fromAlt`: an item goes to the second stack and comes back.
- `components_framed`: an operation that succeeds, in whatever state,
  - leaves the index of the next operation;
  - leaves the open blocks, unless it opens, turns or closes one;
  - leaves the second stack, unless it is executed and moves an item to it or from it;
  - leaves the start of the script code, unless it is a separator that is executed;
  - leaves both stacks if it is skipped, if it turns or closes a block, if it is a separator, and if it does nothing.

  Any calls without a reset, after any others, leave the start of the script code where it was or further on. And to
  move an item to the second stack and back again gives the same state, two operations later.
-/
import BitcoinScript.Proofs.Conditional.Balance
import BitcoinScript.Proofs.Conditional.Skipping

namespace BitcoinScript

/-! ## Opcodes by what they touch -/

/-- moves an item to the second stack -/
def Opcode.toAlt : Opcode := ⟨0x6b⟩

/-- moves an item back from the second stack -/
def Opcode.fromAlt : Opcode := ⟨0x6c⟩

/-- the opcodes that do nothing, the two lock time checks among them -/
def Opcode.idle : List Opcode :=
  [⟨0x61⟩, ⟨0xb0⟩, ⟨0xb1⟩, ⟨0xb2⟩, ⟨0xb3⟩, ⟨0xb4⟩, ⟨0xb5⟩, ⟨0xb6⟩, ⟨0xb7⟩, ⟨0xb8⟩, ⟨0xb9⟩]

/-- the opcodes that look at neither stack -/
def Opcode.offStack : List Opcode :=
  [.turner, .closer, .codeSeparator] ++ idle

/-- what may differ after an operation -/
structure Operation.Frame (operation : Operation) (s s' : State) : Prop where
  pc : s'.pc = s.pc
  branches : s'.branches = s.branches ∨ operation ∈ ofBlocks
  alt : s'.alt = s.alt ∨ s.executing ∧ (operation = .code .toAlt ∨ operation = .code .fromAlt)
  codeStart : s'.codeStart = s.codeStart ∨ s.executing ∧ operation = .code .codeSeparator
  /-- a skipped operation touches neither stack, and some never do -/
  keepsStacks : s.executing = false ∨ (∃ op ∈ Opcode.offStack, operation = .code op) → s'.main = s.main ∧ s'.alt = s.alt

section

variable {ctx : Context} {operation : Operation} {s s' : State} {action : Action}

/-! ## Single parts -/

theorem execute_branches (h : execute ctx operation s = (s', .ok action)) (hplain : operation.isPlain) :
    s'.branches = s.branches := by
  rcases execute_eq_ok h with ⟨rfl, -⟩ | ⟨hc, -⟩
  · rfl
  · cases hc with
    | push data hx => rfl
    | code hd hi hx hr ha => exact Instruction.branches_of_apply (Operation.not_isFlow_of_isPlain hplain hi) ha

/-- the second stack stays, unless an item is moved between the stacks -/
theorem Operation.Carried.alt (h : operation.Carried ctx s s' action) :
    s'.alt = s.alt ∨ s.executing ∧ (operation = .code .toAlt ∨ operation = .code .fromAlt) := by
  cases h with
  | push data hx => exact .inl rfl
  | @code op instruction _ _ hd hi hx hr ha =>
    have hexecuting : instruction.isFlow = false → s.executing := fun hf => by rwa [hf, Bool.or_false] at hx
    cases Instruction.apply_eq_ok_iff.1 ha with
    | toAlt _ =>
      have hop : op = .toAlt := Opcode.eq_of_instruction? hi (by decide)
      exact .inr ⟨hexecuting rfl, .inl (congrArg Operation.code hop)⟩
    | fromAlt _ =>
      have hop : op = .fromAlt := Opcode.eq_of_instruction? hi (by decide)
      exact .inr ⟨hexecuting rfl, .inr (congrArg Operation.code hop)⟩
    | flow hf =>
      obtain ⟨main, branches, -, rfl⟩ := FlowOp.apply_eq_ok hf
      exact .inl rfl
    | stack _ | codeSeparator | signature _ _ => exact .inl rfl

/-- whether an instruction looks at neither stack -/
def Instruction.isOffStack : Instruction → Bool
  | .stack .nop | .stack (.ignored _) | .flow .turnBlock | .flow .closeBlock | .codeSeparator => true
  | _ => false

theorem Instruction.isOffStack_of_mem {op : Opcode} {instruction : Instruction} (hop : op ∈ Opcode.offStack)
    (hi : op.instruction? = some instruction) : instruction.isOffStack := by
  have htable : ∀ entry ∈ instructionTable, ⟨entry.1⟩ ∈ Opcode.offStack → entry.2.isOffStack := by decide
  exact htable _ (Opcode.mem_of_instruction? hi) hop

theorem Instruction.stacks_of_apply {instruction : Instruction} (hoff : instruction.isOffStack)
    (h : instruction.apply ctx s = .ok (s', action)) : s'.main = s.main ∧ s'.alt = s.alt := by
  cases instruction with
  | stack op =>
    cases op with
    | nop | ignored _ =>
      cases h
      exact ⟨rfl, rfl⟩
    | _ => cases hoff
  | flow op =>
    cases op with
    | openBlock negated => cases hoff
    | turnBlock =>
      obtain ⟨turned, ht, h⟩ := exists_of_map_eq_ok h
      obtain ⟨branches, -, rfl⟩ := State.turnBlock_eq_ok ht
      cases h
      exact ⟨rfl, rfl⟩
    | closeBlock =>
      obtain ⟨closed, hc, h⟩ := exists_of_map_eq_ok h
      obtain ⟨branches, -, rfl⟩ := State.exitBlock_eq_ok hc
      cases h
      exact ⟨rfl, rfl⟩
  | codeSeparator =>
    cases h
    exact ⟨rfl, rfl⟩
  | toAlt | fromAlt | signature _ => cases hoff

theorem Operation.Carried.stacks_of_skipped (h : operation.Carried ctx s s' action) (hx : s.executing = false) :
    s'.main = s.main ∧ s'.alt = s.alt := by
  cases h with
  | push data hx' => cases hx.symm.trans hx'
  | @code op instruction _ _ hd hi hx' hr ha =>
    have hflow : instruction.isFlow = true := by rwa [hx, Bool.false_or] at hx'
    cases instruction with
    | flow flow =>
      change flow.apply s = _ at ha
      rw [FlowOp.apply_eq_pass hx] at ha
      obtain ⟨r, -, h⟩ := exists_of_map_eq_ok ha
      cases h
      exact ⟨rfl, rfl⟩
    | stack _ | toAlt | fromAlt | codeSeparator | signature _ => cases hflow

/-- an operation that succeeds touches what its opcode may, and no other part of the state -/
theorem execute_frame (h : execute ctx operation s = (s', .ok action)) : operation.Frame s s' where
  pc := execute_pc_eq h
  branches := by
    cases hplain : operation.isPlain with
    | true => exact .inl (execute_branches h hplain)
    | false =>
      rw [Operation.isPlain, Bool.not_eq_false'] at hplain
      exact .inr (List.contains_iff_mem.1 hplain)
  alt := by
    rcases execute_eq_ok h with ⟨rfl, -⟩ | ⟨hc, -⟩
    · exact .inl rfl
    · exact hc.alt
  codeStart := by
    rcases execute_eq_ok h with ⟨rfl, -⟩ | ⟨hc, -⟩
    · exact .inl rfl
    · rcases hc.codeStart with ⟨hop, hx, -⟩ | ⟨-, hstart⟩
      · exact .inr ⟨hx, hop⟩
      · exact .inl hstart
  keepsStacks := by
    intro hkept
    rcases execute_eq_ok h with ⟨rfl, -⟩ | ⟨hc, -⟩
    · exact ⟨rfl, rfl⟩
    · rcases hkept with hx | ⟨op, hop, rfl⟩
      · exact hc.stacks_of_skipped hx
      · cases hc with
        | code hd hi hx hr ha => exact Instruction.stacks_of_apply (Instruction.isOffStack_of_mem hop hi) ha

end

/-! ## Along a run -/

/-- where the script code of a run starts; before the first step, at the first byte -/
def Run.codeStart (run : Run) : Nat :=
  (run.state?.getD .initial).codeStart

/-- a step of the machine moves the start of the script code forward or not at all -/
theorem State.codeStart_le_next {ctx : Context} {s : State} (hcons : ctx.program.Consecutive) (h : s.Placed ctx none) :
    s.codeStart ≤ (s.next ctx).1.codeStart := by
  rcases State.next_cases ctx s with
    ⟨operation, s', action, -, he, hn⟩ | ⟨operation, s', failure, -, he, hn⟩ | ⟨-, -, hn⟩ | ⟨-, -, hn⟩ <;> rw [hn]
  · show s.codeStart ≤ s'.codeStart
    rw [execute_codeStart he]
    split
    · obtain ⟨k, hk, hstart⟩ := h.boundary
      rw [hstart]
      exact hcons.offset_mono (Nat.le_succ_of_le hk)
    · exact Nat.le_refl _
  · exact Nat.le_of_eq (execute_codeStart_of_error h.limited.items_le he).symm

/-- it is known where the script code of a session starts, if the script is decoded -/
def Session.Placed (session : Session) : Prop :=
  session.Has fun ctx s ending? => ctx.program.Consecutive → s.Placed ctx ending?

theorem Session.Placed.step {session : Session} (h : session.Placed) : session.step.1.Placed :=
  Session.has_step (fun _ => State.initial_placed) (fun ctx s hs hcons => State.next_placed ctx s (hs hcons)) h

theorem History.placed (script : Bytes) (spend : Option Spend) (strict : Bool) (calls : List Call) :
    ((History.new script spend strict).calls calls).session.Placed :=
  History.state_invariant (fun _ => State.initial_placed) (fun ctx s hs hcons => State.next_placed ctx s (hs hcons))
    script spend strict calls

theorem Session.Placed.codeStart_le_step {session : Session} {script : Bytes} (h : session.Placed)
    (hscript : session.run.script = Program.decode script) :
    session.run.codeStart ≤ session.step.1.run.codeStart := by
  cases he : session.run.ending? with
  | some ending => rw [(step_of_ending_some he).1]
  | none =>
    cases hp : session.run.script with
    | error failure =>
      have hstate : session.step.1.run.state? = session.run.state? := by
        simp only [Session.step, Run.step, Run.next, he, hp]
      rw [Run.codeStart, Run.codeStart, hstate]
    | ok program =>
      have hcons : program.Consecutive := (Program.of_decode (hscript.symm.trans hp)).1
      have hplaced := Session.Has.of_going h (fun _ => State.initial_placed) hp he hcons
      rw [Run.codeStart, Run.codeStart, (step_of_ok hp he).1]
      exact State.codeStart_le_next hcons hplaced

/-- calls without a reset move the start of the script code forward or not at all -/
theorem History.codeStart_le_calls (script : Bytes) (spend : Option Spend) (strict : Bool) (calls : List Call)
    {more : List Call} (hmore : ∀ call ∈ more, call.isReset = false) :
    let h := (History.new script spend strict).calls calls
    h.session.run.codeStart ≤ (h.calls more).session.run.codeStart := by
  intro h
  -- what a step needs to know of the session is kept along with the bound
  let Later (h' : History) : Prop :=
    h'.Follows strict ∧ h'.session.Placed ∧ h.session.run.codeStart ≤ h'.session.run.codeStart
  have hstep : ∀ h', Later h' → Later (h'.call .step) := by
    intro h' ⟨hfollows, hplaced, hle⟩
    exact ⟨hfollows.call .step, hplaced.step, hle.trans (hplaced.codeStart_le_step hfollows.script_eq)⟩
  have hnow : Later h :=
    ⟨(History.Follows.new script spend strict).calls calls, History.placed script spend strict calls, Nat.le_refl _⟩
  exact (calls_invariant hstep hnow hmore).2.2

/-! ## To the second stack and back -/

section

variable {ctx : Context} {s : State} {item : Bytes} {rest : Stack}

/-- an executed instruction that has what it needs makes what it does, if there is room -/
theorem execute_of_makes {op : Opcode} {instruction : Instruction} {s' : State} {action : Action}
    (hi : op.instruction? = some instruction) (hx : s.executing)
    (htx : instruction.needsTransaction → ctx.spend.isSome) (hdepth : instruction.depth ≤ s.main.length)
    (hmakes : instruction.Makes ctx s s' action) (hsize : s'.items ≤ stackLimit) :
    execute ctx (.code op) s = (s', .ok action) := by
  rw [execute_ready_eq hi hx htx hdepth, Instruction.apply_eq_ok_iff.2 hmakes]
  exact State.sized_of_le hsize action

theorem execute_toAlt (hx : s.executing) (hmain : s.main = item :: rest) (hsize : s.items ≤ stackLimit) :
    execute ctx (.code .toAlt) s = ({ s with main := rest, alt := item :: s.alt }, .ok (.movedToAlt item)) := by
  have hdepth : Instruction.toAlt.depth ≤ s.main.length := hmain ▸ Nat.le_add_left 1 _
  refine execute_of_makes rfl hx nofun hdepth (.toAlt hmain) ?_
  simp only [State.items, hmain, List.length_cons] at hsize ⊢
  omega

theorem execute_fromAlt (hx : s.executing) (halt : s.alt = item :: rest)
    (hsize : (item :: s.main).length + rest.length ≤ stackLimit) :
    execute ctx (.code .fromAlt) s = ({ s with main := item :: s.main, alt := rest }, .ok (.movedFromAlt item)) :=
  execute_of_makes rfl hx nofun (Nat.zero_le _) (.fromAlt halt) hsize

/-- an item that is moved to the second stack and back changes nothing -/
theorem execute_toAlt_fromAlt (hx : s.executing) (hmain : s.main = item :: rest) (hsize : s.items ≤ stackLimit) :
    ∃ moved, execute ctx (.code .toAlt) s = (moved, .ok (.movedToAlt item)) ∧
      execute ctx (.code .fromAlt) moved = (s, .ok (.movedFromAlt item)) := by
  obtain ⟨main, alt, branches, pc, codeStart⟩ := s
  obtain rfl : main = item :: rest := hmain
  let moved : State := ⟨rest, item :: alt, branches, pc, codeStart⟩
  exact ⟨moved, execute_toAlt hx rfl hsize, execute_fromAlt (s := moved) hx rfl hsize⟩

theorem drive_toAlt_fromAlt (hx : s.executing) (hmain : s.main = item :: rest) (hsize : s.items ≤ stackLimit) :
    drive ctx [.code .toAlt, .code .fromAlt] s =
      ({ s with pc := s.pc + 2 }, .ok [.movedToAlt item, .movedFromAlt item]) := by
  obtain ⟨main, alt, branches, pc, codeStart⟩ := s
  obtain rfl : main = item :: rest := hmain
  let moved : State := ⟨rest, item :: alt, branches, pc + 1, codeStart⟩
  refine drive_cons_eq_ok_iff.2 ⟨_, _, _, execute_toAlt hx rfl hsize, ?_, rfl⟩
  exact drive_cons_eq_ok_iff.2 ⟨_, _, [], execute_fromAlt (s := moved) hx rfl hsize, rfl, rfl⟩

end

/-- **Each part of the state has its own opcodes.** An operation that succeeds leaves every part of the state that is
not its own; in a run, the start of the script code is never moved back; and to move an item to the second stack and
back changes nothing, if there are not too many items on both. -/
theorem components_framed :
    (∀ ctx operation s s' action, execute ctx operation s = (s', .ok action) → operation.Frame s s') ∧
    (∀ script spend strict calls more, (∀ call ∈ more, call.isReset = false) →
      let h := (History.new script spend strict).calls calls
      h.session.run.codeStart ≤ (h.calls more).session.run.codeStart) ∧
    ∀ (ctx : Context) (s : State) (item : Bytes) (rest : Stack), s.executing → s.main = item :: rest →
      s.items ≤ stackLimit →
      (∃ moved, execute ctx (.code .toAlt) s = (moved, .ok (.movedToAlt item)) ∧
        execute ctx (.code .fromAlt) moved = (s, .ok (.movedFromAlt item))) ∧
      drive ctx [.code .toAlt, .code .fromAlt] s =
        ({ s with pc := s.pc + 2 }, .ok [.movedToAlt item, .movedFromAlt item]) := by
  refine ⟨fun _ _ _ _ _ => execute_frame, fun script spend strict calls _ => ?_, ?_⟩
  · exact History.codeStart_le_calls script spend strict calls
  · intro ctx s item rest hx hmain hsize
    exact ⟨execute_toAlt_fromAlt hx hmain hsize, drive_toAlt_fromAlt hx hmain hsize⟩

/-- an item that is moved to the second stack and back, with a separator before that moves the script code on -/
theorem components_framed_move :
    let ctx : Context := ⟨⟨[]⟩, none, false⟩
    let s : State := ⟨[[5]], [[3]], .none, 0, 0⟩
    let h := (History.new [0x55, 0xab, 0x6b, 0x6c] none false).calls [.step]
    Operation.Frame (.code .toAlt) s ⟨[], [[5], [3]], .none, 0, 0⟩ ∧
      h.session.run.codeStart = 0 ∧ h.session.run.codeStart ≤ (h.calls [.finish]).session.run.codeStart ∧
      (h.calls [.finish]).session.run.codeStart = 2 ∧
      drive ctx [.code .toAlt, .code .fromAlt] s =
        (⟨[[5]], [[3]], .none, 2, 0⟩, .ok [.movedToAlt [5], .movedFromAlt [5]]) := by
  intro ctx s h
  obtain ⟨hframe, hstart, hback⟩ := components_framed
  have hmove : execute ctx (.code .toAlt) s = (⟨[], [[5], [3]], .none, 0, 0⟩, .ok (.movedToAlt [5])) := rfl
  refine ⟨hframe _ _ _ _ _ hmove, by decide +kernel, ?_, by decide +kernel, ?_⟩
  · exact hstart [0x55, 0xab, 0x6b, 0x6c] none false [.step] [.finish] (by decide)
  · exact (hback ctx s [5] [] rfl rfl (by decide)).2

end BitcoinScript
