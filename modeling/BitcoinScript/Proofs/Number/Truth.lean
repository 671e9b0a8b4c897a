/-
True items. Whether an item is true is found by a scan of its bytes, and what number it is by another one. The two agree
for items of any length: an item is true if and only if its value is not zero, in whichever of its forms zero is
written. So the opcodes that test an item and those that compute with its number decide alike.

Results:
- `Number.isTrue_iff_signedMagnitude`: the two scans agree.
- `execute_opener`, `execute_verify`, `execute_dupIfTrue`: what the opcodes that test an item make of it.
- `execute_unary`: what the opcodes that compute with one number make of it.
- `truth_is_not_zero`: an item of any length is true if and only if its value in signed magnitude is not zero; if it is
  read as a number, if and only if this is not zero. In a state that executes, with an item on top of the stack,
  - an if opens a block that is taken if the item is true, and a not-if one that is taken if it is false;
  - a verify takes a true item off, and fails on a false one and leaves it;
  - a true item is duplicated where that is asked for, unless there is no room for it, and a false one is not;
  - if the item is read as an operand, the opcode for not-zero puts a true item in its place and the one for not a false
    item if it is true, and the other way round if it is false.
-/
import BitcoinScript.Proofs.Conditional.Body
import BitcoinScript.Proofs.VerifyForms

namespace BitcoinScript

namespace Number

/-- an item is true if and only if its value in signed magnitude is not zero -/
theorem isTrue_iff_signedMagnitude (bs : Bytes) : isTrue bs ↔ signedMagnitude bs ≠ 0 := by
  rw [isTrue_iff, decode_eq_signedMagnitude]

/-- an operand is true if and only if it is not read as zero -/
theorem isTrue_eq_of_read {bs : Bytes} {limit : Nat} {strict : Bool} {n : Int} (h : read bs limit strict = .ok n) :
    isTrue bs = (n != 0) := by
  rw [Bool.eq_iff_iff, isTrue_iff, (of_read_eq_ok h).2, bne_iff_ne]

theorem isTrue_encode (n : Int) : isTrue (encode n) ↔ n ≠ 0 := by
  rw [isTrue_iff, decode_encode]

end Number

section

variable {ctx : Context} {s : State} {item : Bytes} {rest : Stack}

theorem execute_verify (hx : s.executing) (hsize : s.items ≤ stackLimit) (hmain : s.main = item :: rest) :
    execute ctx (.code .verify) s =
      if Number.isTrue item then ({ s with main := rest }, .ok (.verified item))
      else (s, .error (.within "OP_VERIFY" (.falseItem item))) := by
  split <;> rename_i hvalue
  · have hroom : rest.length + s.alt.length ≤ stackLimit := by
      rw [State.items, hmain, List.length_cons] at hsize
      omega
    exact Opcode.execute_verify_of_isTrue ctx hx hmain hvalue hroom
  · exact Opcode.execute_verify_of_not_isTrue ctx hx hmain hvalue

theorem execute_dupIfTrue (hx : s.executing) (hmain : s.main = item :: rest) :
    execute ctx (.code ⟨0x73⟩) s =
      State.sized { s with main := if Number.isTrue item then item :: item :: rest else item :: rest }
        (.duplicatedIf item (Number.isTrue item)) := by
  have hdepth : StackOp.dupIfTrue.depth ≤ s.main.length := hmain ▸ Nat.le_add_left 1 _
  rw [execute_stack_eq rfl hx hdepth, hmain, StackOp.apply]
  cases Number.isTrue item <;> rfl

theorem execute_unary {code : Opcode} {op : UnaryOp} {n : Int}
    (hi : code.instruction? = some (.stack (.unary op))) (hx : s.executing) (hsize : s.items ≤ stackLimit)
    (hmain : s.main = item :: rest) (hread : Number.read item operandLimit ctx.strict = .ok n) :
    execute ctx (.code code) s =
      ({ s with main := Number.encode (op.eval n) :: rest }, .ok (.computed1 n (op.eval n))) := by
  have hdepth : (StackOp.unary op).depth ≤ s.main.length := hmain ▸ Nat.le_add_left 1 _
  have happly : (StackOp.unary op).apply ctx.strict s.main =
      .ok (Number.encode (op.eval n) :: rest, .computed1 n (op.eval n)) := by
    rw [hmain]
    simp only [StackOp.apply, StackOp.operand, hread]
    rfl
  have hroom : (Number.encode (op.eval n) :: rest).length + s.alt.length ≤ stackLimit := by
    rw [State.items, hmain] at hsize
    exact hsize
  exact execute_stack_eq_ok hi hx hdepth happly hroom

end

/-- **An item is true if and only if it is not zero.** This is so for byte strings of any length, by their value in
signed magnitude, and for what is written for numbers; and the item on top of the stack is taken for true by all opcodes
that test it or by none. -/
theorem truth_is_not_zero :
    (∀ bs, Number.isTrue bs ↔ Number.signedMagnitude bs ≠ 0) ∧
    (∀ bs : Bytes, bs.length ≤ 7 → ∃ n, Number.read bs 7 false = .ok n ∧ (Number.isTrue bs ↔ n ≠ 0)) ∧
    (∀ n, Number.isTrue (Number.encode n) ↔ n ≠ 0) ∧
    ∀ (ctx : Context) (s : State) (item : Bytes) (rest : Stack), s.executing → s.items ≤ stackLimit →
      s.main = item :: rest →
      let value := Number.isTrue item
      (∀ negated, ∃ action, execute ctx (.code (.opener negated)) s =
        ({ s with main := rest, branches := s.branches.push (value != negated) }, .ok action)) ∧
      execute ctx (.code .verify) s =
        (if value then ({ s with main := rest }, .ok (.verified item))
          else (s, .error (.within "OP_VERIFY" (.falseItem item)))) ∧
      execute ctx (.code ⟨0x73⟩) s =
        State.sized { s with main := if value then item :: item :: rest else item :: rest }
          (.duplicatedIf item value) ∧
      ∀ n, Number.read item operandLimit ctx.strict = .ok n →
        value = (n != 0) ∧
        (∃ action, execute ctx (.code ⟨0x92⟩) s = ({ s with main := rest.pushBool value }, .ok action)) ∧
        ∃ action, execute ctx (.code ⟨0x91⟩) s = ({ s with main := rest.pushBool !value }, .ok action) := by
  refine ⟨Number.isTrue_iff_signedMagnitude, ?_, Number.isTrue_encode, ?_⟩
  · intro bs hlength
    exact ⟨Number.decode bs, Number.read_lax_eq_ok_iff.2 ⟨hlength, rfl⟩, Number.isTrue_iff bs⟩
  · intro ctx s item rest hx hsize hmain value
    refine ⟨fun negated => execute_opener hx hsize hmain, execute_verify hx hsize hmain, execute_dupIfTrue hx hmain, ?_⟩
    intro n hread
    have hvalue : value = (n != 0) := Number.isTrue_eq_of_read hread
    refine ⟨hvalue, ⟨.computed1 n (truth (n != 0)), ?_⟩, ⟨.computed1 n (truth (n == 0)), ?_⟩⟩
    · have hi : Opcode.instruction? ⟨0x92⟩ = some (.stack (.unary .notZero)) := rfl
      rw [hvalue]
      exact execute_unary hi hx hsize hmain hread
    · have hi : Opcode.instruction? ⟨0x91⟩ = some (.stack (.unary .not)) := rfl
      have hzero : (!value) = (n == 0) := by rw [hvalue, bne, Bool.not_not]
      rw [hzero]
      exact execute_unary hi hx hsize hmain hread

/-- a zero that has a byte more than it needs, and a sign: no opcode takes it for true -/
theorem truth_is_not_zero_negative :
    let item : Bytes := [0x00, 0x80]
    let s : State := ⟨[item, [7]], [], .none, 0, 0⟩
    let ctx : Context := ⟨⟨[]⟩, none, false⟩
    Number.read item 7 false = .ok 0 ∧ Number.read item operandLimit false = .ok 0 ∧
      (execute ctx (.code (.opener false)) s).1.executing = false ∧
      (execute ctx (.code (.opener true)) s).1.executing = true ∧
      (execute ctx (.code .verify) s).1 = s ∧ (execute ctx (.code ⟨0x73⟩) s).1 = s ∧
      (execute ctx (.code ⟨0x92⟩) s).1.main = [[], [7]] ∧ (execute ctx (.code ⟨0x91⟩) s).1.main = [[0x01], [7]] := by
  intro item s ctx
  obtain ⟨-, -, -, hopcodes⟩ := truth_is_not_zero
  obtain ⟨hopen, hverify, hdup, hnumber⟩ := hopcodes ctx s item [[7]] rfl (by decide) rfl
  obtain ⟨-, ⟨_, hnotZero⟩, ⟨_, hnot⟩⟩ := hnumber 0 rfl
  obtain ⟨_, hif⟩ := hopen false
  obtain ⟨_, hnotIf⟩ := hopen true
  have hone : Stack.pushBool [[7]] (!Number.isTrue item) = [[0x01], [7]] := by decide +kernel
  rw [hif, hnotIf, hverify, hdup, hnotZero, hnot]
  exact ⟨rfl, rfl, rfl, rfl, rfl, rfl, rfl, hone⟩

end BitcoinScript
