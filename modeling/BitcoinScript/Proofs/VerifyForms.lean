/-
Opcodes that tell whether something holds, and their verifying forms, which fail instead of telling that it does not.
Each form is an end of its own of the same instruction: it takes its operands off and concludes by itself, without a
truth value on the stack between.

Results:
- `Verifies`: how the two forms compare on one stack, proved for each pair.
- `Opcode.VerifiedBy.compares`: so they compare when they are executed.
- `verify_forms`: on every stack within the limit, for all operands, any number of keys and signatures, and whether or
  not there is a transaction,
  - the form succeeds if and only if the opcode does and then a verify does, and both ways leave the same state;
  - it fails because what it verifies does not hold if and only if the opcode succeeds and leaves a false item on top;
  - it fails in any other way if and only if the opcode fails in that way, and when it fails it leaves the state as it
    was.
-/
import BitcoinScript.Proofs.Multisig
import BitcoinScript.Proofs.Number.Codec

namespace BitcoinScript

/-- the opcode that takes off a true item, and fails on a false one -/
def Opcode.verify : Opcode :=
  ⟨0x69⟩

/-- an opcode and its verifying form -/
inductive Opcode.VerifiedBy : (base form : Opcode) → Prop where
  | equal : VerifiedBy ⟨0x87⟩ ⟨0x88⟩
  | equalNumbers : VerifiedBy ⟨0x9c⟩ ⟨0x9d⟩
  | checkOne : VerifiedBy ⟨0xac⟩ ⟨0xad⟩
  | checkMany : VerifiedBy ⟨0xae⟩ ⟨0xaf⟩

/-! ## The two forms on a stack -/

/-- how an instruction and its verifying form end on the stack `main`: alike, if operands are missing or refused, and
else the one tells a value that the other fails on if it is false -/
inductive Verifies (main : Stack) : (base form : Except Failure (Stack × Action)) → Prop where
  | refuses {failure : Failure} (hk : failure.kind ≠ .verifyFailed) : Verifies main (.error failure) (.error failure)
  | tells {value : Bool} {rest : Stack} {told done : Action} {failure : Failure} (hlt : rest.length < main.length)
      (hk : failure.kind = .verifyFailed) :
      Verifies main (.ok (rest.pushBool value, told)) (if value then .ok (rest, done) else .error failure)

namespace Verifies

theorem bind {α : Type} {main : Stack} {kinds : List FailureKind} {x : Except Failure α}
    {base form : α → Except Failure (Stack × Action)} (hx : Fails kinds x) (hk : .verifyFailed ∉ kinds)
    (h : ∀ a, x = .ok a → Verifies main (base a) (form a)) : Verifies main (x >>= base) (x >>= form) := by
  cases x with
  | error failure => exact .refuses fun he => hk (he ▸ hx failure rfl)
  | ok a => exact h a rfl

theorem of_tooFewItems (main : Stack) (needed : Nat) :
    Verifies main (.error (.tooFewItems needed main.length)) (.error (.tooFewItems needed main.length)) :=
  .refuses nofun

theorem equal (strict : Bool) (main : Stack) :
    Verifies main (StackOp.apply strict (.equal false) main) (StackOp.apply strict (.equal true) main) := by
  match main with
  | [] => exact of_tooFewItems [] 2
  | [item] => exact of_tooFewItems [item] 2
  | b :: a :: rest => exact .tells (Nat.lt_succ_of_lt (Nat.lt_succ_self _)) rfl

theorem equalNumbers (strict : Bool) (main : Stack) :
    Verifies main (StackOp.apply strict (.binary .equal) main) (StackOp.apply strict .equalNumbersVerify main) := by
  match main with
  | [] => exact of_tooFewItems [] 2
  | [item] => exact of_tooFewItems [item] 2
  | b :: a :: rest =>
    have hread : ∀ item, Fails [.numericOverflow] (StackOp.operand strict item) :=
      fun item => Number.overflows_read item operandLimit strict
    refine bind (hread a) (by decide) fun x _ => bind (hread b) (by decide) fun y _ => ?_
    -- the one form tests with a truth value, the other with an equation
    simp only [← beq_iff_eq (a := x)]
    exact .tells (Nat.lt_succ_of_lt (Nat.lt_succ_self _)) rfl

variable {check : List Bytes → Verdict}
  (hc : ∀ signatures signature key, ∃ valid, check signatures signature key = .ok valid)

include hc

theorem checkOne (main : Stack) :
    Verifies main (SignatureOp.applyOne check false main) (SignatureOp.applyOne check true main) := by
  match main with
  | [] => exact of_tooFewItems [] 2
  | [item] => exact of_tooFewItems [item] 2
  | key :: signature :: rest =>
    obtain ⟨valid, hv⟩ := hc [signature] signature key
    simp only [SignatureOp.applyOne, hv]
    exact .tells (Nat.lt_succ_of_lt (Nat.lt_succ_self _)) rfl

theorem checkMany (strict : Bool) (main : Stack) :
    Verifies main (SignatureOp.applyMany strict check false main) (SignatureOp.applyMany strict check true main) := by
  refine bind (ManyOperands.fails_take strict main) (by decide) fun o ho => ?_
  have hlt : o.rest.length < main.length := Nat.lt_of_lt_of_le (by omega) (ManyOperands.length_rest_le ho)
  obtain ⟨left, hleft, -⟩ := unmatched_eq_ok (hc o.signatures) o.signatures o.keys
  simp only [hleft]
  exact .tells hlt rfl

end Verifies

/-! ## The two forms as opcodes -/

/-- how an opcode and its verifying form compare when they are executed -/
inductive Opcode.Compares (ctx : Context) (s : State) (base form : Opcode) : Prop where
  /-- both fail for the same reason -/
  | refuse {failure : Failure} (hk : failure.kind ≠ .verifyFailed)
      (hbase : execute ctx (.code base) s = (s, .error (.within base.name failure)))
      (hform : execute ctx (.code form) s = (s, .error (.within form.name failure)))
  /-- the one pushes true, and the other pushes nothing -/
  | hold {rest : Stack} {told done : Action}
      (hbase : execute ctx (.code base) s = ({ s with main := rest.pushBool true }, .ok told))
      (hform : execute ctx (.code form) s = ({ s with main := rest }, .ok done))
      (hroom : rest.length + s.alt.length ≤ stackLimit)
  /-- the one pushes false, and the other fails -/
  | differ {rest : Stack} {told : Action} {failure : Failure} (hk : failure.kind = .verifyFailed)
      (hbase : execute ctx (.code base) s = ({ s with main := rest.pushBool false }, .ok told))
      (hform : execute ctx (.code form) s = (s, .error (.within form.name failure)))

namespace Opcode

variable {ctx : Context} {s : State}

theorem execute_verify_of_isTrue (ctx : Context) (hx : s.executing) {item : Bytes} {rest : Stack}
    (hmain : s.main = item :: rest) (htrue : Number.isTrue item) (hsize : rest.length + s.alt.length ≤ stackLimit) :
    execute ctx (.code .verify) s = ({ s with main := rest }, .ok (.verified item)) := by
  have hdepth : StackOp.verify.depth ≤ s.main.length := hmain ▸ Nat.le_add_left 1 _
  have happly : StackOp.verify.apply ctx.strict s.main = .ok (rest, .verified item) := by
    rw [hmain, StackOp.apply, if_pos htrue]
  exact execute_stack_eq_ok rfl hx hdepth happly hsize

theorem execute_verify_of_not_isTrue (ctx : Context) (hx : s.executing) {item : Bytes} {rest : Stack}
    (hmain : s.main = item :: rest) (hfalse : ¬ Number.isTrue item) :
    execute ctx (.code .verify) s = (s, .error (.within verify.name (.falseItem item))) := by
  have hdepth : StackOp.verify.depth ≤ s.main.length := hmain ▸ Nat.le_add_left 1 _
  have happly : StackOp.verify.apply ctx.strict s.main = .error (.falseItem item) := by
    rw [hmain, StackOp.apply, if_neg hfalse]
  exact execute_stack_eq_error rfl hx hdepth happly

theorem execute_verify_true (ctx : Context) (hx : s.executing) (rest : Stack)
    (hsize : rest.length + s.alt.length ≤ stackLimit) :
    execute ctx (.code .verify) { s with main := rest.pushBool true } =
      ({ s with main := rest }, .ok (.verified (Number.ofBool true))) :=
  execute_verify_of_isTrue (s := { s with main := rest.pushBool true }) ctx hx rfl (Number.isTrue_ofBool true) hsize

theorem execute_verify_false (ctx : Context) (hx : s.executing) (rest : Stack) :
    execute ctx (.code .verify) { s with main := rest.pushBool false } =
      ({ s with main := rest.pushBool false }, .error (.within verify.name (.falseItem (Number.ofBool false)))) :=
  execute_verify_of_not_isTrue (s := { s with main := rest.pushBool false }) ctx hx rfl
    (Bool.eq_false_iff.1 (Number.isTrue_ofBool false))

/-- two instructions that need the same compare as opcodes as they do on the stack -/
theorem Compares.of_verifies {base form : Opcode} {first second : Instruction}
    {told verified : Except Failure (Stack × Action)} (hfirst : base.instruction? = some first)
    (hsecond : form.instruction? = some second) (hready : first.ready ctx s = second.ready ctx s)
    (htold : first.apply ctx s = told.map fun (main, action) => ({ s with main }, action))
    (hverified : second.apply ctx s = verified.map fun (main, action) => ({ s with main }, action))
    (hv : Verifies s.main told verified) (hx : s.executing) (hsize : s.items ≤ stackLimit) :
    base.Compares ctx s form := by
  have hbase : execute ctx (.code base) s = base.conclude s (do first.ready ctx s; first.apply ctx s) :=
    execute_code_eq hfirst (by rw [hx, Bool.true_or])
  have hform : execute ctx (.code form) s = form.conclude s (do second.ready ctx s; second.apply ctx s) :=
    execute_code_eq hsecond (by rw [hx, Bool.true_or])
  rw [hready, htold] at hbase
  rw [hverified] at hform
  -- before they are carried out, nothing is verified yet
  cases hr : second.ready ctx s with
  | error failure =>
    have hk : failure.kind ≠ .verifyFailed := fun he =>
      absurd (he ▸ second.fails_ready ctx s failure hr) (by decide)
    rw [hr] at hbase hform
    exact .refuse hk hbase hform
  | ok _ =>
    rw [hr] at hbase hform
    cases hv with
    | refuses hk => exact .refuse hk hbase hform
    | @tells value rest told done failure hlt hk =>
      have hroom : { s with main := rest.pushBool value : State }.items ≤ stackLimit :=
        Nat.le_trans (Nat.add_le_add_right hlt _) hsize
      have hbase' : execute ctx (.code base) s = ({ s with main := rest.pushBool value }, .ok told) :=
        hbase.trans (State.sized_of_le hroom told)
      cases value with
      | false => exact .differ hk hbase' hform
      | true =>
        have hroom' : { s with main := rest : State }.items ≤ stackLimit :=
          Nat.le_trans (Nat.add_le_add_right (Nat.le_of_lt hlt) _) hsize
        exact .hold hbase' (hform.trans (State.sized_of_le hroom' done)) hroom'

theorem Compares.of_signature {base form : Opcode} {first second : SignatureOp}
    (hfirst : base.instruction? = some (.signature first)) (hsecond : form.instruction? = some (.signature second))
    (hdepth : first.depth = second.depth)
    (hv : ∀ spend, Verifies s.main (first.apply ctx.strict (ctx.check spend s.codeStart) s.main)
      (second.apply ctx.strict (ctx.check spend s.codeStart) s.main))
    (hx : s.executing) (hsize : s.items ≤ stackLimit) : base.Compares ctx s form := by
  have hready : Instruction.ready ctx s (.signature first) = Instruction.ready ctx s (.signature second) := by
    simp only [Instruction.ready, Instruction.depth, hdepth]
    rfl
  cases hspend : ctx.spend with
  | none =>
    have hrefuses : Verifies s.main (.error .noTransaction) (.error .noTransaction) := .refuses (by decide)
    refine .of_verifies hfirst hsecond hready ?_ ?_ hrefuses hx hsize
    · rw [Instruction.apply, hspend]
      rfl
    · rw [Instruction.apply, hspend]
      rfl
  | some spend =>
    refine .of_verifies hfirst hsecond hready ?_ ?_ (hv spend) hx hsize
    · rw [Instruction.apply, hspend]
    · rw [Instruction.apply, hspend]

/-- a verifying form and its opcode compare so on every stack -/
theorem VerifiedBy.compares {base form : Opcode} (h : base.VerifiedBy form) (ctx : Context) (hx : s.executing)
    (hsize : s.items ≤ stackLimit) : base.Compares ctx s form := by
  have hc := fun spend => ctx.check_eq_ok spend s.codeStart
  cases h with
  | equal => exact .of_verifies rfl rfl rfl rfl rfl (.equal ctx.strict s.main) hx hsize
  | equalNumbers => exact .of_verifies rfl rfl rfl rfl rfl (.equalNumbers ctx.strict s.main) hx hsize
  | checkOne => exact .of_signature rfl rfl rfl (fun spend => .checkOne (hc spend) s.main) hx hsize
  | checkMany => exact .of_signature rfl rfl rfl (fun spend => .checkMany (hc spend) ctx.strict s.main) hx hsize

end Opcode

/-- **A verifying form is its opcode followed by a verify.** The two ways succeed alike and leave the same state; the
form fails to verify if and only if the opcode leaves a false item, and fails in any other way if and only if the opcode
does. When it fails, it leaves the state as it was. -/
theorem verify_forms (ctx : Context) (s : State) (base form : Opcode) (h : base.VerifiedBy form) (hx : s.executing)
    (hsize : s.items ≤ stackLimit) :
    (∀ s', (Operation.code form).Succeeds ctx s s' ↔
      ∃ s₁, (Operation.code base).Succeeds ctx s s₁ ∧ (Operation.code .verify).Succeeds ctx s₁ s') ∧
    ((Operation.code form).FailsWith ctx s .verifyFailed ↔
      ∃ s₁ item rest, (Operation.code base).Succeeds ctx s s₁ ∧ s₁.main = item :: rest ∧
        Number.isTrue item = false) ∧
    (∀ kind, kind ≠ .verifyFailed →
      ((Operation.code form).FailsWith ctx s kind ↔ (Operation.code base).FailsWith ctx s kind)) ∧
    ∀ s' failure, execute ctx (.code form) s = (s', .error failure) → s' = s := by
  cases h.compares ctx hx hsize with
  | refuse hk hbase hform =>
    refine ⟨fun s' => ?_, ?_, fun kind _ => ?_, ?_⟩
    · exact iff_of_false (Operation.not_succeeds hform) fun ⟨_, hb, _⟩ => Operation.not_succeeds hbase hb
    · refine iff_of_false (fun hf => hk ((Operation.failsWith_iff hform).1 hf)) ?_
      rintro ⟨s₁, item, rest, hb, -⟩
      exact Operation.not_succeeds hbase hb
    · exact (Operation.failsWith_iff hform).trans (Operation.failsWith_iff hbase).symm
    · intro s' failure he
      cases hform.symm.trans he
      rfl
  | @hold rest told done hbase hform hroom =>
    refine ⟨fun s' => ?_, ?_, fun kind _ => ?_, ?_⟩
    · rw [Operation.succeeds_iff hform, ← Operation.succeeds_iff (Opcode.execute_verify_true ctx hx rest hroom)]
      constructor
      · intro hv
        exact ⟨_, ⟨told, hbase⟩, hv⟩
      · rintro ⟨s₁, hb, hv⟩
        rwa [(Operation.succeeds_iff hbase).1 hb] at hv
    · refine iff_of_false (Operation.not_failsWith hform) ?_
      rintro ⟨s₁, item, below, hb, hmain, hfalse⟩
      cases (Operation.succeeds_iff hbase).1 hb
      cases hmain
      cases (Number.isTrue_ofBool true).symm.trans hfalse
    · exact iff_of_false (Operation.not_failsWith hform) (Operation.not_failsWith hbase)
    · intro s' failure he
      cases hform.symm.trans he
  | @differ rest told failure hk hbase hform =>
    refine ⟨fun s' => ?_, ?_, fun kind hne => ?_, ?_⟩
    · refine iff_of_false (Operation.not_succeeds hform) ?_
      rintro ⟨s₁, hb, hv⟩
      cases (Operation.succeeds_iff hbase).1 hb
      exact Operation.not_succeeds (Opcode.execute_verify_false ctx hx rest) hv
    · refine iff_of_true ((Operation.failsWith_iff hform).2 hk) ?_
      exact ⟨_, Number.ofBool false, rest, ⟨told, hbase⟩, rfl, Number.isTrue_ofBool false⟩
    · refine iff_of_false (fun hf => hne ?_) (Operation.not_failsWith hbase)
      exact ((Operation.failsWith_iff hform).1 hf).symm.trans hk
    · intro s' failure he
      cases hform.symm.trans he
      rfl

/-- two numbers that are equal, written with a different number of bytes: their check is done in one step or in two -/
theorem verify_forms_padded :
    let s : State := ⟨[[1, 0], [1], [7]], [], .none, 0, 0⟩
    let ctx : Context := ⟨⟨[]⟩, none, false⟩
    ∃ s₁, (Operation.code ⟨0x9c⟩).Succeeds ctx s s₁ ∧
      (Operation.code .verify).Succeeds ctx s₁ { s with main := [[7]] } := by
  intro s ctx
  exact ((verify_forms ctx s ⟨0x9c⟩ ⟨0x9d⟩ .equalNumbers rfl (by decide)).1 _).1 ⟨.verifiedEqualNumbers 1 1, rfl⟩

end BitcoinScript
