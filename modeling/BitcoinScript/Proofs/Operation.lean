/-
What one operation can do. It is skipped, or it fails and the state stays, or it is carried out; then the sizes of the
stacks are checked, and nothing comes after that check.

Results:
- `execute_cases`: these three are all there is.
- `state_kept_on_failure`: a failure of any kind but the one of the check of the sizes leaves the whole state as it was.
-/
import BitcoinScript.Machine.Execute

namespace BitcoinScript

/-- the operation is carried out on `s`: this is the state after it, before the sizes are checked, and what it did -/
inductive Operation.Carried (ctx : Context) (s : State) : Operation → State → Action → Prop where
  | push (data : Bytes) (hx : s.executing) : Carried ctx s (.push data) (s.pushMain data) (.pushed data)
  | code {op : Opcode} {instruction : Instruction} {s' : State} {action : Action} (hd : op.isDisabled = false)
      (hi : op.instruction? = some instruction) (hx : s.executing || instruction.isFlow)
      (hr : instruction.ready ctx s = .ok ()) (ha : instruction.apply ctx s = .ok (s', action)) :
      Carried ctx s (.code op) s' action

/-- the operation is skipped on `s`, inside a block that is not taken -/
inductive Operation.Skipped (s : State) : Operation → Action → Prop where
  | push (data : Bytes) (hx : s.executing = false) : Skipped s (.push data) (.skippedPush data.length)
  | code {op : Opcode} (hx : s.executing = false) (hd : op.isDisabled = false)
      (hi : ∀ instruction, op.instruction? = some instruction → instruction.isFlow = false) :
      Skipped s (.code op) (.skipped op)

/-- the operation cannot be carried out on `s` -/
inductive Operation.Refused (ctx : Context) (s : State) : Operation → Failure → Prop where
  | disabled {op : Opcode} (hd : op.isDisabled) : Refused ctx s (.code op) (.disabledOpcode op)
  | unknown {op : Opcode} (hi : op.instruction? = none) (hx : s.executing) :
      Refused ctx s (.code op) (.unknownOpcode op)
  | unready {op : Opcode} {instruction : Instruction} {failure : Failure} (hi : op.instruction? = some instruction)
      (hr : instruction.ready ctx s = .error failure) : Refused ctx s (.code op) (.within op.name failure)
  | failed {op : Opcode} {instruction : Instruction} {failure : Failure} (hi : op.instruction? = some instruction)
      (ha : instruction.apply ctx s = .error failure) : Refused ctx s (.code op) (.within op.name failure)

/-- whether a failure is the one of the check of the sizes -/
def Failure.ofSize : Failure → Bool
  | .tooManyItems _ => true
  | _ => false

theorem Operation.Refused.ofSize {ctx : Context} {operation : Operation} {s : State} {failure : Failure}
    (h : operation.Refused ctx s failure) : failure.ofSize = false := by
  cases h <;> rfl

/-- the three ways of an operation -/
theorem execute_cases (ctx : Context) (operation : Operation) (s : State) :
    (∃ action, operation.Skipped s action ∧ execute ctx operation s = (s, .ok action)) ∨
      (∃ failure, operation.Refused ctx s failure ∧ execute ctx operation s = (s, .error failure)) ∨
      ∃ s' action, operation.Carried ctx s s' action ∧ execute ctx operation s = s'.sized action := by
  rw [execute_eq_apply]
  cases operation with
  | push data =>
    simp only [Operation.apply]
    cases hx : s.executing with
    | false => exact .inl ⟨_, .push data hx, rfl⟩
    | true => exact .inr (.inr ⟨_, _, .push data hx, rfl⟩)
  | code op =>
    simp only [Operation.apply]
    cases hd : op.isDisabled with
    | true => exact .inr (.inl ⟨_, .disabled hd, rfl⟩)
    | false =>
      cases hi : op.instruction? with
      | none =>
        cases hx : s.executing with
        | false =>
          refine .inl ⟨_, .code hx hd ?_, rfl⟩
          intro instruction ho
          cases hi.symm.trans ho
        | true => exact .inr (.inl ⟨_, .unknown hi hx, rfl⟩)
      | some instruction =>
        simp only [Bool.false_eq_true, if_false, ← Bool.not_or]
        cases hx : s.executing || instruction.isFlow with
        | false =>
          obtain ⟨hn, hf⟩ := Bool.or_eq_false_iff.1 hx
          refine .inl ⟨_, .code hn hd ?_, rfl⟩
          intro other ho
          cases hi.symm.trans ho
          exact hf
        | true =>
          cases hr : instruction.ready ctx s with
          | error failure => exact .inr (.inl ⟨_, .unready hi hr, rfl⟩)
          | ok _ =>
            cases ha : instruction.apply ctx s with
            | error failure => exact .inr (.inl ⟨.within op.name failure, .failed hi ha, rfl⟩)
            | ok r => exact .inr (.inr ⟨r.1, r.2, .code hd hi hx hr ha, rfl⟩)

theorem Operation.Skipped.execute_eq {operation : Operation} {s : State} {action : Action}
    (h : operation.Skipped s action) (ctx : Context) : execute ctx operation s = (s, .ok action) := by
  rw [execute_eq_apply]
  cases h with
  | push data hx => simp only [Operation.apply, hx, Bool.false_eq_true, if_false]
  | @code op hx hd hi =>
    simp only [Operation.apply, hd, hx, Bool.false_eq_true, if_false, Bool.not_false, Bool.true_and]
    cases ho : op.instruction? with
    | none => rfl
    | some instruction =>
      have hf : instruction.isFlow = false := hi instruction ho
      simp only [hf, Bool.not_false, if_true]

/-- an opcode whose instruction is looked at comes to that instruction, if this is ready -/
theorem execute_code_eq {ctx : Context} {op : Opcode} {instruction : Instruction} {s : State}
    (hi : op.instruction? = some instruction) (hx : s.executing || instruction.isFlow) :
    execute ctx (.code op) s = op.conclude s (do instruction.ready ctx s; instruction.apply ctx s) := by
  rw [execute_eq_apply]
  simp only [Operation.apply, Opcode.isDisabled_of_instruction? hi, hi, ← Bool.not_or, hx, Bool.not_true,
    Bool.false_eq_true, if_false]

theorem Instruction.ready_eq_require {ctx : Context} {s : State} {instruction : Instruction} (hx : s.executing)
    (htx : instruction.needsTransaction → ctx.spend.isSome) :
    instruction.ready ctx s = s.main.require instruction.depth := by
  have hspend : ¬ (instruction.needsTransaction && ctx.spend.isNone) := by
    rw [Bool.and_eq_true]
    rintro ⟨hneeds, hnone⟩
    exact absurd (htx hneeds) (Option.not_isSome_iff_eq_none.2 (Option.isNone_iff_eq_none.1 hnone))
  rw [ready, hx, if_neg (by decide), if_neg hspend]

/-- an executed instruction with what it needs comes to its meaning -/
theorem execute_ready_eq {ctx : Context} {op : Opcode} {instruction : Instruction} {s : State}
    (hi : op.instruction? = some instruction) (hx : s.executing)
    (htx : instruction.needsTransaction → ctx.spend.isSome) (hdepth : instruction.depth ≤ s.main.length) :
    execute ctx (.code op) s = op.conclude s (instruction.apply ctx s) := by
  rw [execute_code_eq hi (by rw [hx, Bool.true_or]), Instruction.ready_eq_require hx htx, Stack.require_eq_ok hdepth]
  rfl

theorem execute_stack_eq {ctx : Context} {code : Opcode} {op : StackOp} {s : State}
    (hi : code.instruction? = some (.stack op)) (hx : s.executing) (hdepth : op.depth ≤ s.main.length) :
    execute ctx (.code code) s =
      code.conclude s ((op.apply ctx.strict s.main).map fun (main, action) => ({ s with main }, action)) := by
  have hneeds : ¬ (Instruction.stack op).needsTransaction := Bool.false_ne_true
  rw [execute_ready_eq hi hx (fun h => absurd h hneeds) hdepth]
  rfl

theorem execute_stack_eq_error {ctx : Context} {code : Opcode} {op : StackOp} {s : State} {failure : Failure}
    (hi : code.instruction? = some (.stack op)) (hx : s.executing) (hdepth : op.depth ≤ s.main.length)
    (ha : op.apply ctx.strict s.main = .error failure) :
    execute ctx (.code code) s = (s, .error (.within code.name failure)) := by
  rw [execute_stack_eq hi hx hdepth, ha]
  rfl

theorem execute_signature_eq {ctx : Context} {spend : Spend} {code : Opcode} {op : SignatureOp} {s : State}
    (hi : code.instruction? = some (.signature op)) (hspend : ctx.spend = some spend) (hx : s.executing)
    (hdepth : op.depth ≤ s.main.length) :
    execute ctx (.code code) s =
      code.conclude s ((op.apply ctx.strict (ctx.check spend s.codeStart) s.main).map fun (main, action) =>
        ({ s with main }, action)) := by
  have hsome : ctx.spend.isSome := by rw [hspend, Option.isSome_some]
  rw [execute_ready_eq hi hx (fun _ => hsome) hdepth, Instruction.apply, hspend]

theorem Operation.Carried.execute_eq {ctx : Context} {operation : Operation} {s s' : State} {action : Action}
    (h : operation.Carried ctx s s' action) : execute ctx operation s = s'.sized action := by
  cases h with
  | push data hx =>
    rw [execute_eq_apply]
    simp only [Operation.apply, hx, if_true]
  | code hd hi hx hr ha =>
    rw [execute_code_eq hi hx, hr]
    show Opcode.conclude _ s (Instruction.apply ctx s _) = _
    rw [ha]
    rfl

/-! ## The check of the sizes -/

theorem State.sized_of_le {s : State} (h : s.items ≤ stackLimit) (action : Action) :
    s.sized action = (s, .ok action) := by
  rw [sized, checkSize, if_neg (Nat.not_lt.2 h)]
  rfl

theorem State.sized_of_lt {s : State} (h : stackLimit < s.items) (action : Action) :
    s.sized action = (s, .error (.tooManyItems s.items)) := by
  rw [sized, checkSize, if_pos h]
  rfl

theorem State.sized_eq_ok {s s' : State} {action action' : Action} (h : s.sized action = (s', .ok action')) :
    s' = s ∧ action' = action ∧ s.items ≤ stackLimit := by
  unfold sized checkSize at h
  split at h
  · cases h
  · cases h
    exact ⟨rfl, rfl, by omega⟩

theorem State.sized_eq_error {s s' : State} {action : Action} {failure : Failure}
    (h : s.sized action = (s', .error failure)) :
    s' = s ∧ failure = .tooManyItems s.items ∧ stackLimit < s.items := by
  unfold sized checkSize at h
  split at h
  · cases h
    exact ⟨rfl, rfl, by omega⟩
  · cases h

theorem execute_stack_eq_ok {ctx : Context} {code : Opcode} {op : StackOp} {s : State} {main : Stack} {action : Action}
    (hi : code.instruction? = some (.stack op)) (hx : s.executing) (hdepth : op.depth ≤ s.main.length)
    (ha : op.apply ctx.strict s.main = .ok (main, action)) (hsize : main.length + s.alt.length ≤ stackLimit) :
    execute ctx (.code code) s = ({ s with main }, .ok action) := by
  rw [execute_stack_eq hi hx hdepth, ha]
  exact State.sized_of_le (s := { s with main }) hsize action

/-! ## Success and failure -/

/-- the operation succeeds on `s` and leaves `s'` -/
def Operation.Succeeds (ctx : Context) (operation : Operation) (s s' : State) : Prop :=
  ∃ action, execute ctx operation s = (s', .ok action)

/-- the operation fails on `s` with a failure of this kind -/
def Operation.FailsWith (ctx : Context) (operation : Operation) (s : State) (kind : FailureKind) : Prop :=
  ∃ failure, (execute ctx operation s).2 = .error failure ∧ failure.kind = kind

section Ends

variable {ctx : Context} {operation : Operation} {s s₁ s' : State} {action : Action} {failure : Failure}
  {kind : FailureKind}

theorem Operation.succeeds_iff (h : execute ctx operation s = (s₁, .ok action)) :
    operation.Succeeds ctx s s' ↔ s' = s₁ := by
  rw [Succeeds, h]
  constructor
  · rintro ⟨action', he⟩
    cases he
    rfl
  · rintro rfl
    exact ⟨action, rfl⟩

theorem Operation.not_succeeds (h : execute ctx operation s = (s₁, .error failure)) :
    ¬ operation.Succeeds ctx s s' := by
  rintro ⟨action, he⟩
  cases h.symm.trans he

theorem Operation.failsWith_iff (h : execute ctx operation s = (s₁, .error failure)) :
    operation.FailsWith ctx s kind ↔ failure.kind = kind := by
  rw [FailsWith, h]
  constructor
  · rintro ⟨failure', he, hk⟩
    cases he
    exact hk
  · intro hk
    exact ⟨failure, rfl, hk⟩

theorem Operation.not_failsWith (h : execute ctx operation s = (s₁, .ok action)) :
    ¬ operation.FailsWith ctx s kind := by
  rintro ⟨failure, he, -⟩
  rw [h] at he
  cases he

end Ends

/-- an operation that succeeds leaves the state as it was, because it is skipped, or it was carried out and the sizes of
the stacks are within the limit -/
theorem execute_eq_ok {ctx : Context} {operation : Operation} {s s' : State} {action : Action}
    (h : execute ctx operation s = (s', .ok action)) :
    (s' = s ∧ operation.Skipped s action) ∨ (operation.Carried ctx s s' action ∧ s'.items ≤ stackLimit) := by
  rcases execute_cases ctx operation s with ⟨action', hk, he⟩ | ⟨failure, -, he⟩ | ⟨s'', action', hc, he⟩
  · rw [he] at h
    cases h
    exact .inl ⟨rfl, hk⟩
  · rw [he] at h
    cases h
  · rw [he] at h
    obtain ⟨rfl, rfl, hle⟩ := State.sized_eq_ok h
    exact .inr ⟨hc, hle⟩

theorem execute_items_le {ctx : Context} {operation : Operation} {s s' : State} {action : Action}
    (hs : s.items ≤ stackLimit) (h : execute ctx operation s = (s', .ok action)) : s'.items ≤ stackLimit := by
  rcases execute_eq_ok h with ⟨rfl, -⟩ | ⟨-, hle⟩
  · exact hs
  · exact hle

/-- an operation that fails leaves the state as it was, or it was carried out and left too many items -/
theorem execute_eq_error {ctx : Context} {operation : Operation} {s s' : State} {failure : Failure}
    (h : execute ctx operation s = (s', .error failure)) :
    s' = s ∧ operation.Refused ctx s failure ∨
      ∃ action, operation.Carried ctx s s' action ∧ failure = .tooManyItems s'.items ∧ stackLimit < s'.items := by
  rcases execute_cases ctx operation s with ⟨action, -, he⟩ | ⟨failure', hf, he⟩ | ⟨s'', action, hc, he⟩
  · rw [he] at h
    cases h
  · rw [he] at h
    cases h
    exact .inl ⟨rfl, hf⟩
  · rw [he] at h
    obtain ⟨rfl, hf, hl⟩ := State.sized_eq_error h
    exact .inr ⟨action, hc, hf, hl⟩

/-- **A failure changes nothing.** An operation that fails for any reason but the check of the stack sizes leaves the
two stacks, the open blocks, the index of the next operation and the start of the script code as they were: although it
is carried out in place, it changes nothing before all that can fail has been looked at. -/
theorem state_kept_on_failure (ctx : Context) (operation : Operation) (s s' : State) (failure : Failure)
    (h : execute ctx operation s = (s', .error failure)) (hk : failure.kind ≠ .scriptSizeExceeded) : s' = s := by
  rcases execute_eq_error h with ⟨hs, -⟩ | ⟨action, -, hf, -⟩
  · exact hs
  · rw [hf] at hk
    exact absurd rfl hk

/-- an index that is too large is refused while it is still on the stack -/
theorem state_kept_on_failure_fetch :
    let s : State := ⟨[[5], [1]], [], .none, 0, 0⟩
    (execute ⟨⟨[]⟩, none, false⟩ (.code ⟨0x7a⟩) s).1 = s :=
  state_kept_on_failure ⟨⟨[]⟩, none, false⟩ (.code ⟨0x7a⟩) _ _ (.within "OP_ROLL" (.noSuchItem 5 1)) rfl (by decide)

/-! ## One operation after another -/

/-- executes operations, and moves on after each, up to the first failure -/
def drive (ctx : Context) : List Operation → State → State × Except Failure (List Action)
  | [], s => (s, .ok [])
  | operation :: operations, s =>
    match execute ctx operation s with
    | (s', .error failure) => (s', .error failure)
    | (s', .ok action) =>
      let (last, result) := drive ctx operations s'.advance
      (last, result.map (action :: ·))

theorem drive_cons_eq_ok_iff {ctx : Context} {operation : Operation} {operations : List Operation} {s s' : State}
    {actions : List Action} :
    drive ctx (operation :: operations) s = (s', .ok actions) ↔
      ∃ s₁ action later, execute ctx operation s = (s₁, .ok action) ∧
        drive ctx operations s₁.advance = (s', .ok later) ∧ actions = action :: later := by
  rw [drive]
  constructor
  · intro h
    split at h
    · cases h
    · rename_i s₁ action he
      cases hd : drive ctx operations s₁.advance with
      | mk s₂ result =>
        rw [hd] at h
        cases result <;> cases h
        exact ⟨s₁, action, _, he, hd, rfl⟩
  · rintro ⟨s₁, action, later, he, hd, rfl⟩
    rw [he]
    show ((drive ctx operations s₁.advance).1, (drive ctx operations s₁.advance).2.map (action :: ·)) = _
    rw [hd]
    rfl

theorem drive_append (ctx : Context) (operations more : List Operation) (s : State) :
    drive ctx (operations ++ more) s =
      match drive ctx operations s with
      | (s', .error failure) => (s', .error failure)
      | (s', .ok actions) => ((drive ctx more s').1, (drive ctx more s').2.map (actions ++ ·)) := by
  induction operations generalizing s with
  | nil =>
    show drive ctx more s = ((drive ctx more s).1, (drive ctx more s).2.map ([] ++ ·))
    cases drive ctx more s with
    | mk s' result => cases result <;> rfl
  | cons operation operations ih =>
    rw [List.cons_append, drive, drive]
    cases execute ctx operation s with
    | mk s₁ result =>
      cases result with
      | error failure => rfl
      | ok action =>
        simp only [ih]
        cases drive ctx operations s₁.advance with
        | mk s₂ result =>
          cases result with
          | error failure => rfl
          | ok actions =>
            show ((drive ctx more s₂).1, ((drive ctx more s₂).2.map (actions ++ ·)).map (action :: ·)) =
              ((drive ctx more s₂).1, (drive ctx more s₂).2.map (action :: actions ++ ·))
            cases (drive ctx more s₂).2 <;> rfl

end BitcoinScript
