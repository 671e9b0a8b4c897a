/-
The kinds of failure that an instruction can have. A check of a signature never fails: an input that is bound is there,
and everything that cannot be read makes the verdict false.

Results:
- `StackOp.apply_eq_tooFewItems`, `StackOp.fails_apply_of_le`: an instruction on the main stack misses items if there
  are fewer than it needs, and otherwise only if it looks for an item by its index.
- `Spend.checkSignature_eq_ok`: every signature has a verdict.
- `Instruction.fails_apply`: an instruction fails only with one of its kinds, and only those that turn or close a block
  fail for the balance of the blocks.
-/
import BitcoinScript.Machine.Meaning

namespace BitcoinScript

/-- what can go wrong is of one of the kinds -/
def Fails {α : Type} (kinds : List FailureKind) (x : Except Failure α) : Prop :=
  ∀ failure, x = .error failure → failure.kind ∈ kinds

namespace Fails

variable {α β : Type} {kinds more : List FailureKind}

theorem ok (a : α) : Fails kinds (.ok a) := nofun

theorem error (kind : FailureKind) {failure : Failure} (hk : failure.kind = kind) (h : kind ∈ kinds) :
    Fails kinds (.error failure : Except Failure α) := by
  rintro _ ⟨⟩
  rw [hk]
  exact h

theorem mono {x : Except Failure α} (h : Fails kinds x) (hsub : kinds ⊆ more) : Fails more x :=
  fun failure hf => hsub (h failure hf)

theorem bind {x : Except Failure α} {f : α → Except Failure β} (hx : Fails kinds x) (hf : ∀ a, Fails kinds (f a)) :
    Fails kinds (x >>= f) := by
  cases x with
  | error failure => exact error failure.kind rfl (hx failure rfl)
  | ok a => exact hf a

theorem map {x : Except Failure α} (hx : Fails kinds x) (f : α → β) : Fails kinds (x.map f) := by
  cases x with
  | error failure => exact error failure.kind rfl (hx failure rfl)
  | ok a => exact ok (f a)

theorem ite {p : Prop} [Decidable p] {x y : Except Failure α} (hx : p → Fails kinds x) (hy : ¬ p → Fails kinds y) :
    Fails kinds (if p then x else y) := by
  split
  · exact hx ‹p›
  · exact hy ‹¬ p›

end Fails

/-! ## The main stack -/

/-- the kinds of failure that instructions on the main stack have -/
def stackKinds : List FailureKind :=
  [.stackUnderflow, .numericOverflow, .verifyFailed]

theorem Number.overflows_read (item : Bytes) (limit : Nat) (strict : Bool) :
    Fails [.numericOverflow] (read item limit strict) := by
  refine .ite (fun _ => .error .numericOverflow rfl (by decide)) fun _ => ?_
  exact .ite (fun _ => .error .numericOverflow rfl (by decide)) fun _ => .ok _

theorem Shuffle.exists_of_depth_le {kind : Shuffle} {main : Stack} (h : kind.depth ≤ main.length) :
    ∃ result, kind.apply? main = some result := by
  cases kind with
  | drop | dup => match main, h with | _ :: _, _ => exact ⟨_, rfl⟩
  | drop2 | dup2 | nip | «over» | swap | tuck => match main, h with | _ :: _ :: _, _ => exact ⟨_, rfl⟩
  | dup3 | rot => match main, h with | _ :: _ :: _ :: _, _ => exact ⟨_, rfl⟩
  | over2 | swap2 => match main, h with | _ :: _ :: _ :: _ :: _, _ => exact ⟨_, rfl⟩
  | rot2 => match main, h with | _ :: _ :: _ :: _ :: _ :: _ :: _, _ => exact ⟨_, rfl⟩

theorem Shuffle.depth_le_of_eq_some {kind : Shuffle} {main : Stack} {result : Stack × Bytes}
    (h : kind.apply? main = some result) : kind.depth ≤ main.length := by
  unfold Shuffle.apply? at h
  split at h
  all_goals first | exact Nat.le_add_left _ _ | cases h

namespace StackOp

theorem apply_eq_tooFewItems (strict : Bool) {op : StackOp} {main : Stack} (h : main.length < op.depth) :
    op.apply strict main = .error (.tooFewItems op.depth main.length) := by
  cases op with
  | nop | ignored _ | pushNumber _ | pushDepth | unspendable => exact absurd h (Nat.not_lt_zero _)
  | verify | dupIfTrue | fetch _ | pushSize | unary _ | hash _ => match main, h with | [], _ => rfl
  | binary _ | equalNumbersVerify => match main, h with | [], _ | [_], _ => rfl
  | equal verify => match verify, main, h with | false, [], _ | true, [], _ | false, [_], _ | true, [_], _ => rfl
  | within => match main, h with | [], _ | [_], _ | [_, _], _ => rfl
  | shuffle kind =>
    have hnone : kind.apply? main = none := by
      refine Option.eq_none_iff_forall_ne_some.2 fun result hr => ?_
      exact Nat.not_lt.2 (Shuffle.depth_le_of_eq_some hr) h
    simp only [apply, hnone]
    rfl

/-- with the items it needs, an instruction that looks no further reads a number that is none, or verifies what does not
hold -/
theorem fails_apply_of_le (strict : Bool) {op : StackOp} {main : Stack} (h : op.depth ≤ main.length)
    (hfetch : ∀ keep, op ≠ .fetch keep) : Fails [.numericOverflow, .verifyFailed] (op.apply strict main) := by
  have hread : ∀ item, Fails [.numericOverflow, .verifyFailed] (operand strict item) :=
    fun item => (Number.overflows_read item operandLimit strict).mono (by decide)
  cases op with
  | nop | ignored _ | pushNumber _ | pushDepth => exact .ok _
  | unspendable => exact .error .verifyFailed rfl (by decide)
  | shuffle kind =>
    obtain ⟨result, happly⟩ := Shuffle.exists_of_depth_le h
    simp only [apply, happly]
    exact .ok _
  | verify =>
    match main, h with
    | _ :: _, _ => exact .ite (fun _ => .ok _) fun _ => .error .verifyFailed rfl (by decide)
  | dupIfTrue => match main, h with | _ :: _, _ => exact .ite (fun _ => .ok _) fun _ => .ok _
  | fetch keep => exact absurd rfl (hfetch keep)
  | pushSize | hash _ => match main, h with | _ :: _, _ => exact .ok _
  | equal verify =>
    match verify, main, h with
    | false, _ :: _ :: _, _ => exact .ok _
    | true, _ :: _ :: _, _ => exact .ite (fun _ => .ok _) fun _ => .error .verifyFailed rfl (by decide)
  | unary op => match main, h with | item :: _, _ => exact .bind (hread item) fun _ => .ok _
  | binary op => match main, h with | b :: a :: _, _ => exact .bind (hread a) fun _ => .bind (hread b) fun _ => .ok _
  | equalNumbersVerify =>
    match main, h with
    | b :: a :: _, _ =>
      refine .bind (hread a) fun x => .bind (hread b) fun y => ?_
      exact .ite (fun _ => .ok _) fun _ => .error .verifyFailed rfl (by decide)
  | within =>
    match main, h with
    | c :: b :: a :: _, _ => exact .bind (hread a) fun _ => .bind (hread b) fun _ => .bind (hread c) fun _ => .ok _

theorem fails_fetchItem (keep : Bool) (index : Int) (main : Stack) :
    Fails stackKinds (fetchItem keep index main) := by
  unfold fetchItem
  split
  · exact .error .stackUnderflow rfl (by decide)
  · exact .ok _

/-- an instruction on the main stack misses items, reads a number that is none, or verifies what does not hold -/
theorem fails_apply (strict : Bool) (op : StackOp) (main : Stack) : Fails stackKinds (op.apply strict main) := by
  by_cases hdepth : op.depth ≤ main.length
  · by_cases hfetch : ∃ keep, op = .fetch keep
    · obtain ⟨keep, rfl⟩ := hfetch
      match main, hdepth with
      | index :: rest, _ =>
        have hread : Fails stackKinds (operand strict index) :=
          (Number.overflows_read index operandLimit strict).mono (by decide)
        exact .bind hread fun n => fails_fetchItem keep n rest
    · exact (fails_apply_of_le strict hdepth fun keep he => hfetch ⟨keep, he⟩).mono (by decide)
  · rw [apply_eq_tooFewItems strict (Nat.not_le.1 hdepth)]
    exact .error .stackUnderflow rfl (by decide)

end StackOp

/-! ## Signatures -/

/-- every spend has a signature hash: the input that is signed is one that the transaction has -/
theorem Spend.exists_signatureHash (spend : Spend) (code : Bytes) (hashType : UInt32) :
    ∃ digest, spend.tx.signatureHash spend.index code hashType = .ok digest := by
  rw [Transaction.signatureHash, if_neg (Nat.not_le.2 spend.index_lt)]
  split
  · exact ⟨_, rfl⟩
  · exact ⟨_, rfl⟩

/-- so every signature has a verdict -/
theorem Spend.checkSignature_eq_ok (spend : Spend) (signature key code : Bytes) :
    ∃ valid, spend.checkSignature signature key code = .ok valid := by
  unfold checkSignature
  split
  · split
    · rename_i hashType _ _ _ _ _
      obtain ⟨digest, hd⟩ := spend.exists_signatureHash code hashType
      rw [hd]
      exact ⟨_, rfl⟩
    · exact ⟨false, rfl⟩
  · exact ⟨false, rfl⟩

theorem Context.check_eq_ok (ctx : Context) (spend : Spend) (codeStart : Nat) (signatures : List Bytes)
    (signature key : Bytes) : ∃ valid, ctx.check spend codeStart signatures signature key = .ok valid :=
  spend.checkSignature_eq_ok signature key (ctx.program.scriptCode codeStart signatures)

theorem Context.fails_check (ctx : Context) (spend : Spend) (codeStart : Nat) (signatures : List Bytes)
    (signature key : Bytes) : Fails stackKinds (ctx.check spend codeStart signatures signature key) := by
  obtain ⟨valid, hv⟩ := ctx.check_eq_ok spend codeStart signatures signature key
  rw [hv]
  exact .ok valid

theorem fails_unmatched {check : Verdict} (hc : ∀ signature key, Fails stackKinds (check signature key))
    (signatures keys : List Bytes) : Fails stackKinds (unmatched check signatures keys) := by
  induction keys generalizing signatures with
  | nil => cases signatures <;> exact .ok _
  | cons key keys ih =>
    cases signatures with
    | nil => exact .ok _
    | cons signature signatures =>
      rw [unmatched]
      exact .bind (hc signature key) fun valid => .ite (fun _ => .ok _) fun _ => ih _

/-- operands are missing, or a count is refused -/
theorem ManyOperands.fails_take (strict : Bool) (main : Stack) :
    Fails [.stackUnderflow, .numericOverflow] (take strict main) := by
  have hread : ∀ item, Fails [.stackUnderflow, .numericOverflow] (Number.read item operandLimit strict) :=
    fun item => (Number.overflows_read item operandLimit strict).mono (by decide)
  cases main with
  | nil => exact .error .stackUnderflow rfl (by decide)
  | cons keyCount below =>
    refine .bind (hread _) fun n => .ite (fun _ => .error .numericOverflow rfl (by decide)) fun _ => ?_
    split
    · exact .error .stackUnderflow rfl (by decide)
    · refine .bind (hread _) fun m => ?_
      refine .ite (fun _ => .error .numericOverflow rfl (by decide)) fun _ => ?_
      exact .ite (fun _ => .error .stackUnderflow rfl (by decide)) fun _ => .ok _

theorem SignatureOp.fails_concludeMany (verify : Bool) (o : ManyOperands) (left : List Bytes) :
    Fails [.verifyFailed] (concludeMany verify o left) :=
  .ite (fun _ => .ok _) fun _ => .ite (fun _ => .ok _) fun _ => .error .verifyFailed rfl (by decide)

theorem SignatureOp.fails_apply (strict : Bool) {check : List Bytes → Verdict}
    (hc : ∀ signatures signature key, Fails stackKinds (check signatures signature key)) (op : SignatureOp)
    (main : Stack) : Fails stackKinds (op.apply strict check main) := by
  cases op with
  | one verify =>
    show Fails stackKinds (applyOne check verify main)
    unfold applyOne
    split
    · exact .bind (hc _ _ _) fun valid =>
        .ite (fun _ => .ok _) fun _ => .ite (fun _ => .ok _) fun _ => .error .verifyFailed rfl (by decide)
    · exact .error .stackUnderflow rfl (by decide)
  | many verify =>
    refine .bind ((ManyOperands.fails_take strict main).mono (by decide)) fun o => ?_
    exact .bind (fails_unmatched (hc o.signatures) _ _) fun left =>
      (fails_concludeMany verify o left).mono (by decide)

/-! ## All instructions -/

/-- the kinds of failure that an instruction has -/
def Instruction.kinds : Instruction → List FailureKind
  | .flow (.openBlock _) => [.stackUnderflow]
  | .flow .turnBlock => [.unbalancedElse]
  | .flow .closeBlock => [.unbalancedEndif]
  | .signature _ => .missingTransactionContext :: stackKinds
  | _ => stackKinds

theorem Instruction.kinds_subset {instruction : Instruction} (hf : instruction.isFlow = false) :
    instruction.kinds ⊆ .missingTransactionContext :: stackKinds := by
  cases instruction with
  | flow op => cases hf
  | signature op => exact List.Subset.refl _
  | stack _ | toAlt | fromAlt | codeSeparator => exact List.subset_cons_self _ _

theorem State.fails_popMain (s : State) : Fails [.stackUnderflow] s.popMain := by
  unfold popMain
  cases s.main with
  | nil => exact .error .stackUnderflow rfl (by decide)
  | cons item rest => exact .ok _

theorem FlowOp.fails_apply (s : State) (op : FlowOp) : Fails (Instruction.flow op).kinds (op.apply s) := by
  cases op with
  | openBlock negated => exact .ite (fun _ => .bind s.fails_popMain fun _ => .ok _) fun _ => .ok _
  | turnBlock =>
    refine .map ?_ _
    unfold State.turnBlock
    split
    · exact .ok _
    · split
      · exact .error .unbalancedElse rfl (by decide)
      · exact .error .unbalancedElse rfl (by decide)
  | closeBlock =>
    refine .map ?_ _
    unfold State.exitBlock
    split
    · exact .ok _
    · exact .error .unbalancedEndif rfl (by decide)

/-- an instruction fails only with one of its kinds -/
theorem Instruction.fails_apply (ctx : Context) (s : State) (instruction : Instruction) :
    Fails instruction.kinds (instruction.apply ctx s) := by
  cases instruction with
  | stack op => exact .map (op.fails_apply ctx.strict s.main) _
  | flow op => exact op.fails_apply s
  | toAlt => exact .map (s.fails_popMain.mono (by decide)) _
  | fromAlt =>
    refine .map ?_ _
    unfold State.popAlt
    split
    · exact .error .stackUnderflow rfl (by decide)
    · exact .ok _
  | codeSeparator => exact .ok _
  | signature op =>
    have hsub : stackKinds ⊆ (signature op).kinds := List.subset_cons_self _ _
    simp only [apply]
    split
    · exact .error .missingTransactionContext rfl List.mem_cons_self
    · rename_i spend _
      exact .map ((op.fails_apply ctx.strict (ctx.fails_check spend s.codeStart) s.main).mono hsub) _

theorem Instruction.fails_ready (ctx : Context) (s : State) (instruction : Instruction) :
    Fails [.missingTransactionContext, .stackUnderflow] (instruction.ready ctx s) := by
  refine .ite (fun _ => .ok _) fun _ => .ite (fun _ => .error .missingTransactionContext rfl (by decide)) fun _ => ?_
  exact .ite (fun _ => .error .stackUnderflow rfl (by decide)) fun _ => .ok _

end BitcoinScript
