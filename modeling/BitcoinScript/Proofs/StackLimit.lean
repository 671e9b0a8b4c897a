/-
The limit on the sizes of the stacks. The sizes are checked after an operation has been carried out, and nothing is
taken back when the check fails. So the two stacks together are within the limit everywhere, but for the state that a
run leaves that ended with this check.

Results:
- `stack_limit`: after any calls the sizes are within the limit, or the run has failed by them, and then at most three
  items are too many.
- `stack_limit_passed`: such a run; it leaves one item more than the limit.
-/
import BitcoinScript.Proofs.Operation
import BitcoinScript.Proofs.Session.Calls

namespace BitcoinScript

/-! ## How much an operation adds -/

theorem Shuffle.length_le_of_apply {kind : Shuffle} {main main' : Stack} {item : Bytes}
    (h : kind.apply? main = some (main', item)) : main'.length ≤ main.length + 3 := by
  unfold Shuffle.apply? at h
  split at h <;> cases h <;> simp only [List.length_cons] <;> omega

/-- an instruction on the main stack adds at most three items -/
theorem StackOp.length_apply_le {strict : Bool} {op : StackOp} {main main' : Stack} {action : Action}
    (h : op.apply strict main = .ok (main', action)) : main'.length ≤ main.length + 3 := by
  cases op with
  | nop | ignored _ =>
    cases h
    omega
  | unspendable => cases h
  | pushNumber _ | pushDepth =>
    cases h
    simp only [Stack.pushNumber, Stack.push, List.length_cons]
    omega
  | shuffle kind =>
    simp only [apply] at h
    split at h
    · rename_i ha
      cases h
      exact Shuffle.length_le_of_apply ha
    · cases h
  | fetch keep =>
    cases main with
    | nil => cases h
    | cons item rest =>
      obtain ⟨index, -, h⟩ := exists_of_bind_eq_ok h
      unfold fetchItem at h
      split at h
      · cases h
      · cases h
        have hle : (rest.eraseIdx index.toNat).length ≤ rest.length := List.length_eraseIdx_le ..
        cases keep <;> simp only [List.length_cons, if_true, if_false, Bool.false_eq_true] <;> omega
  | verify | dupIfTrue =>
    cases main with
    | nil => cases h
    | cons item rest =>
      simp only [apply] at h
      split at h <;> cases h <;> simp only [List.length_cons] <;> omega
  | pushSize | hash _ =>
    cases main with
    | nil => cases h
    | cons item rest =>
      cases h
      simp only [Stack.pushNumber, Stack.push, List.length_cons]
      omega
  | equal verify =>
    obtain _ | ⟨b, _ | ⟨a, rest⟩⟩ := main
    · cases verify <;> cases h
    · cases verify <;> cases h
    cases verify with
    | false =>
      cases h
      simp only [Stack.pushBool, Stack.push, List.length_cons]
      omega
    | true =>
      simp only [apply] at h
      split at h <;> cases h
      simp only [List.length_cons]
      omega
  | unary op =>
    cases main with
    | nil => cases h
    | cons item rest =>
      obtain ⟨x, -, h⟩ := exists_of_bind_eq_ok h
      cases h
      simp only [Stack.pushNumber, Stack.push, List.length_cons]
      omega
  | binary op =>
    obtain _ | ⟨b, _ | ⟨a, rest⟩⟩ := main
    · cases h
    · cases h
    obtain ⟨x, -, h⟩ := exists_of_bind_eq_ok h
    obtain ⟨y, -, h⟩ := exists_of_bind_eq_ok h
    cases h
    simp only [Stack.pushNumber, Stack.push, List.length_cons]
    omega
  | equalNumbersVerify =>
    obtain _ | ⟨b, _ | ⟨a, rest⟩⟩ := main
    · cases h
    · cases h
    obtain ⟨x, -, h⟩ := exists_of_bind_eq_ok h
    obtain ⟨y, -, h⟩ := exists_of_bind_eq_ok h
    split at h <;> cases h
    simp only [List.length_cons]
    omega
  | within =>
    obtain _ | ⟨c, _ | ⟨b, _ | ⟨a, rest⟩⟩⟩ := main
    · cases h
    · cases h
    · cases h
    obtain ⟨x, -, h⟩ := exists_of_bind_eq_ok h
    obtain ⟨low, -, h⟩ := exists_of_bind_eq_ok h
    obtain ⟨high, -, h⟩ := exists_of_bind_eq_ok h
    cases h
    simp only [Stack.pushBool, Stack.push, List.length_cons]
    omega

theorem SignatureOp.length_apply_le {strict : Bool} {check : List Bytes → Verdict} {op : SignatureOp}
    {main main' : Stack} {action : Action} (h : op.apply strict check main = .ok (main', action)) :
    main'.length ≤ main.length := by
  cases op with
  | one verify =>
    obtain _ | ⟨key, _ | ⟨signature, rest⟩⟩ := main
    · cases h
    · cases h
    obtain ⟨valid, -, h⟩ := exists_of_bind_eq_ok h
    cases verify <;> cases valid <;> cases h <;> simp only [Stack.pushBool, Stack.push, List.length_cons] <;> omega
  | many verify =>
    obtain ⟨o, ho, h⟩ := exists_of_bind_eq_ok h
    obtain ⟨left, -, h⟩ := exists_of_bind_eq_ok h
    have hr : o.rest.length + 3 ≤ main.length := ManyOperands.length_rest_le ho
    simp only [concludeMany] at h
    cases verify with
    | false =>
      cases h
      simp only [Stack.pushBool, Stack.push, List.length_cons]
      omega
    | true =>
      cases hl : left.isEmpty <;> rw [hl] at h <;> cases h
      omega

theorem Instruction.items_apply_le {ctx : Context} {s s' : State} {action : Action} {instruction : Instruction}
    (h : instruction.apply ctx s = .ok (s', action)) : s'.items ≤ s.items + 3 := by
  cases apply_eq_ok_iff.1 h with
  | stack h =>
    have hle := StackOp.length_apply_le h
    simp only [State.items]
    omega
  | flow h =>
    obtain ⟨main, branches, hsuffix, rfl⟩ := FlowOp.apply_eq_ok h
    have hle : main.length ≤ s.main.length := hsuffix.length_le
    simp only [State.items]
    omega
  | toAlt hm =>
    simp only [State.items, hm, List.length_cons]
    omega
  | fromAlt ha =>
    simp only [State.items, ha, List.length_cons]
    omega
  | codeSeparator => exact Nat.le_add_right _ _
  | signature _ h =>
    have hle := SignatureOp.length_apply_le h
    simp only [State.items]
    omega

theorem Operation.Carried.items_le {ctx : Context} {s s' : State} {operation : Operation} {action : Action}
    (h : operation.Carried ctx s s' action) : s'.items ≤ s.items + 3 := by
  cases h with
  | push data hx =>
    simp only [State.items, State.pushMain, Stack.push, List.length_cons]
    omega
  | code hd hi hx hr ha => exact Instruction.items_apply_le ha

/-! ## The limit -/

/-- the sizes are within the limit, or the run has just failed by them -/
def State.Limited (s : State) (ending? : Option Ending) : Prop :=
  (s.items ≤ stackLimit ∧ ∀ n, ending? ≠ some (.failed (.tooManyItems n))) ∨
    (stackLimit < s.items ∧ s.items ≤ stackLimit + 3 ∧ ending? = some (.failed (.tooManyItems s.items)))

theorem Failure.message_tooManyItems (n : Nat) :
    (tooManyItems n).message = s!"{n} stack items, at most 1000 allowed" := by
  have htail : " stack items, at most " ++ (toString stackLimit ++ " allowed") =
      " stack items, at most 1000 allowed" := by decide
  calc (tooManyItems n).message = toString n ++ " stack items, at most " ++ toString stackLimit ++ " allowed" := rfl
    _ = toString n ++ (" stack items, at most " ++ (toString stackLimit ++ " allowed")) := by
      rw [String.append_assoc, String.append_assoc]
    _ = toString n ++ " stack items, at most 1000 allowed" := by rw [htail]

/-- the check of the sizes is the last thing that an operation does -/
theorem execute_limited {ctx : Context} {operation : Operation} {s s' : State} {failure : Failure}
    (hs : s.items ≤ stackLimit) (h : execute ctx operation s = (s', .error failure)) :
    s'.Limited (some (.failed failure)) := by
  rcases execute_eq_error h with ⟨rfl, hr⟩ | ⟨action, hc, rfl, hlt⟩
  · refine .inl ⟨hs, fun n hn => ?_⟩
    cases hn
    cases hr.ofSize
  · have hle : s'.items ≤ s.items + 3 := hc.items_le
    exact .inr ⟨hlt, by omega, rfl⟩

theorem State.Limited.items_le {s : State} (h : s.Limited none) : s.items ≤ stackLimit := by
  rcases h with ⟨hle, -⟩ | ⟨-, -, hn⟩
  · exact hle
  · cases hn

theorem State.next_limited (ctx : Context) (s : State) (hs : s.Limited none) :
    (s.next ctx).1.Limited (s.next ctx).2.ending? := by
  have hle : s.items ≤ stackLimit := hs.items_le
  rcases State.next_cases ctx s with
    ⟨operation, s', action, -, he, hn⟩ | ⟨operation, s', failure, -, he, hn⟩ | ⟨-, -, hn⟩ | ⟨-, -, hn⟩
  · have hle' : s'.items ≤ stackLimit := execute_items_le hle he
    rw [hn]
    exact .inl ⟨hle', nofun⟩
  · rw [hn]
    exact execute_limited hle he
  · rw [hn]
    exact .inl ⟨hle, nofun⟩
  · rw [hn]
    exact .inl ⟨hle, nofun⟩

/-- **The limit on the sizes of the stacks.** After any calls, the two stacks together are within the limit, and the run
has not failed by their sizes; or it has just failed by them, its failure tells their true sizes, and the operation that
failed has left up to three items too many. -/
theorem stack_limit (script : Bytes) (spend : Option Spend) (strict : Bool) (calls : List Call) :
    let session := ((History.new script spend strict).calls calls).session
    ∀ s, session.run.state? = some s →
      (s.items ≤ stackLimit ∧ ∀ n, session.run.ending? ≠ some (.failed (.tooManyItems n))) ∨
        (stackLimit < s.items ∧ s.items ≤ stackLimit + 3 ∧
          session.run.ending? = some (.failed (.tooManyItems s.items)) ∧
          (Failure.tooManyItems s.items).kind = .scriptSizeExceeded ∧
          (Failure.tooManyItems s.items).message = s!"{s.items} stack items, at most 1000 allowed") := by
  intro session s hs
  have hinit : ∀ _ : Context, State.initial.Limited none := fun _ => .inl ⟨Nat.zero_le _, fun n hn => nomatch hn⟩
  have hreach : session.Has fun _ s ending? => s.Limited ending? :=
    History.state_invariant hinit State.next_limited script spend strict calls
  obtain ⟨program, -, hlim⟩ := hreach s hs
  exact hlim.imp_right fun ⟨hlt, hle, hending⟩ => ⟨hlt, hle, hending, rfl, Failure.message_tooManyItems s.items⟩

/-- one push, and one item -/
theorem stack_limit_one :
    let session := ((History.new [0x51] none false).calls [.step]).session
    session.run.state? = some ⟨[[1]], [], .none, 1, 0⟩ ∧
      State.items ⟨[[1]], [], .none, 1, 0⟩ ≤ stackLimit ∧
      ∀ n, session.run.ending? ≠ some (.failed (.tooManyItems n)) := by
  intro session
  have hstate : session.run.state? = some ⟨[[1]], [], .none, 1, 0⟩ := by decide +kernel
  have hfew : ¬ stackLimit < State.items ⟨[[1]], [], .none, 1, 0⟩ := by decide
  refine ⟨hstate, ?_⟩
  exact (stack_limit [0x51] none false [.step] ⟨[[1]], [], .none, 1, 0⟩ hstate).resolve_right fun h => hfew h.1

/-! ## Past the limit -/

/-- the opcode that pushes the number one -/
def Opcode.one : Opcode := ⟨0x51⟩

theorem Token.scan_ones (n : Nat) : scan (List.replicate n 0x51) = List.replicate n (.single .one) := by
  induction n with
  | zero => rw [List.replicate_zero, scan, List.replicate_zero]
  | succ n ih =>
    rw [List.replicate_succ, scan, List.replicate_succ]
    exact congrArg _ ih

theorem Chunk.ofTokens_ones (offset n : Nat) :
    ∃ chunks, ofTokens offset 0 (List.replicate n (.single .one)) = .ok chunks ∧
      chunks.map operation = List.replicate n (.code .one) := by
  induction n generalizing offset with
  | zero => exact ⟨[], rfl, rfl⟩
  | succ n ih =>
    obtain ⟨chunks, hc, ho⟩ := ih (offset + 1)
    refine ⟨⟨offset, [0x51], .code .one⟩ :: chunks, ?_, ?_⟩
    · have hone : ofTokens offset 0 (.single .one :: List.replicate n (.single .one)) =
          (ofTokens (offset + 1) 0 (List.replicate n (.single .one))).bind fun chunks =>
            .ok (⟨offset, [0x51], .code .one⟩ :: chunks) := rfl
      rw [List.replicate_succ, hone, hc]
      rfl
    · rw [List.map_cons, ho, List.replicate_succ]

theorem Program.decode_ones {n : Nat} (h : n ≤ scriptLimit) :
    ∃ program, decode (List.replicate n 0x51) = .ok program ∧ program.operations = List.replicate n (.code .one) := by
  obtain ⟨chunks, hc, ho⟩ := Chunk.ofTokens_ones 0 n
  refine ⟨⟨chunks⟩, ?_, ho⟩
  rw [decode, List.length_replicate, if_neg (by omega), Token.scan_ones, hc]
  rfl

theorem execute_one (ctx : Context) {s : State} (hx : s.executing) :
    execute ctx (.code .one) s = State.sized { s with main := s.main.pushNumber 1 } (.pushedNumber 1) := by
  have hready : (Instruction.stack (.pushNumber 1)).ready ctx s = .ok () := by
    simp only [Instruction.ready, hx, Bool.not_true, Bool.false_eq_true, if_false]
    exact Stack.require_eq_ok (Nat.zero_le s.main.length)
  exact (Operation.Carried.code rfl rfl (by rw [hx, Bool.true_or]) hready rfl).execute_eq

/-- pushes that come to one item too many leave that item -/
theorem Reference.items_run_ones (ctx : Context) (i n : Nat) (s : State) (hx : s.executing)
    (hn : s.items + n = stackLimit + 1) :
    ∃ final, (run ctx i (List.replicate n (.code .one)) s).final? = some final ∧ final.items = stackLimit + 1 := by
  induction n generalizing i s with
  | zero => exact ⟨s, rfl, hn⟩
  | succ n ih =>
    let s' : State := { s with main := s.main.pushNumber 1 }
    have hs' : s'.items = s.items + 1 := by
      simp only [s', State.items, Stack.pushNumber, Stack.push, List.length_cons]
      omega
    rw [List.replicate_succ]
    by_cases hl : stackLimit < s'.items
    · have he : execute ctx (.code .one) s = (s', .error (.tooManyItems s'.items)) :=
        (execute_one ctx hx).trans (State.sized_of_lt hl _)
      rw [run_cons_of_error i _ he]
      exact ⟨s', rfl, by omega⟩
    · have he : execute ctx (.code .one) s = (s', .ok (.pushedNumber 1)) :=
        (execute_one ctx hx).trans (State.sized_of_le (Nat.not_lt.1 hl) _)
      have hn' : s'.advance.items + n = stackLimit + 1 := by
        show s'.items + n = _
        omega
      rw [run_cons_of_ok i _ he]
      exact ih (i + 1) s'.advance hx hn'

theorem History.items_finish_ones {n : Nat} (hn : n = stackLimit + 1) :
    ∃ s, ((History.new (List.replicate n 0x51) none false).calls [.finish]).session.run.state? = some s ∧
      stackLimit < s.items := by
  have hlimit : n ≤ scriptLimit := by
    rw [hn]
    decide
  obtain ⟨program, hd, ho⟩ := Program.decode_ones hlimit
  have hfinish : ((History.new (List.replicate n 0x51) none false).calls [.finish]).session =
      (Session.new (List.replicate n 0x51) none false).last := by
    show (Session.new (List.replicate n 0x51) none false).finish.1 = _
    rw [(Session.run_to_end (.inl rfl)).1]
  have hitems : State.initial.items + n = stackLimit + 1 := by
    rw [hn]
    exact Nat.zero_add _
  obtain ⟨s, hs, hitems⟩ := Reference.items_run_ones ⟨program, none, false⟩ 0 n .initial rfl hitems
  refine ⟨s, ?_, by omega⟩
  rw [hfinish, Session.last, Session.rest_new, Reference.of, hd]
  simp only [ho]
  exact hs

/-- **The limit can be passed.** A script of a thousand and one pushes leaves a thousand and one items. -/
theorem stack_limit_passed :
    ∃ s, ((History.new (List.replicate 1001 0x51) none false).calls [.finish]).session.run.state? = some s ∧
      stackLimit < s.items := by
  have hn : 1001 = stackLimit + 1 := rfl
  exact History.items_finish_ones hn

end BitcoinScript
