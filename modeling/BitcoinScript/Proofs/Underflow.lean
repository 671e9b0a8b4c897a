/-
When items are missing. The table of the instructions gives a number of items for each, and that many are checked for
before it is carried out. Most instructions look no further. A few find out from their operands how many items they
take, or take them from the second stack, and check for these themselves.

Results:
- `Instruction.Lacks`: what an instruction can miss.
- `ManyOperands.underflows_take_iff`: what a check of several signatures misses, as it counts its operands.
- `underflow_exact`: let an opcode that means something be executed, with a transaction if it needs one;
  - no step of carrying it out takes an item, a key or a signature by an index where there is none;
  - it fails with a stack underflow if and only if items are missing: there are fewer than the table says, the second
    stack is empty, the index of an item is negative or too large, or fewer keys or signatures are there than are
    counted;
  - then the state stays, and the message has the name of the opcode in front.
-/
import BitcoinScript.Proofs.Multisig

namespace BitcoinScript

/-- the instruction misses items in the state `s` -/
inductive Instruction.Lacks (strict : Bool) (s : State) : Instruction → Prop where
  /-- there are fewer items than every use of it needs -/
  | items {instruction : Instruction} (h : s.main.length < instruction.depth) : Lacks strict s instruction
  /-- there is nothing to take from the second stack -/
  | alt (h : s.alt = []) : Lacks strict s .fromAlt
  /-- no item is at the index on top -/
  | index {keep : Bool} {n : Int} (hn : s.main.nthNumber 1 strict = .ok n)
      (h : n < 0 ∨ (s.main.length : Int) - 1 ≤ n) : Lacks strict s (.stack (.fetch keep))
  /-- the keys, or the number of signatures below them, are not all there -/
  | keys {verify : Bool} {n : Nat} (hn : s.main.nthNumber 1 strict = .ok (n : Int)) (hle : n ≤ keyLimit)
      (h : s.main.length < n + 2) : Lacks strict s (.signature (.many verify))
  /-- the signatures, or the item below them, are not all there -/
  | signatures {verify : Bool} {n m : Nat} (hn : s.main.nthNumber 1 strict = .ok (n : Int)) (hle : n ≤ keyLimit)
      (hm : s.main.nthNumber (n + 2) strict = .ok (m : Int)) (hmn : m ≤ n) (h : s.main.length < n + m + 3) :
      Lacks strict s (.signature (.many verify))

/-! ## Failures for missing items -/

/-- this fails because items are missing -/
def Underflows {α : Type} (x : Except Failure α) : Prop :=
  ∃ failure, x = .error failure ∧ failure.kind = .stackUnderflow

namespace Underflows

variable {α β : Type} {x : Except Failure α}

theorem error_iff {failure : Failure} :
    Underflows (.error failure : Except Failure α) ↔ failure.kind = .stackUnderflow := by
  constructor
  · rintro ⟨_, ⟨⟩, hk⟩
    exact hk
  · exact fun hk => ⟨failure, rfl, hk⟩

theorem not_of_fails {kinds : List FailureKind} (h : Fails kinds x) (hk : .stackUnderflow ∉ kinds) :
    ¬ Underflows x := by
  rintro ⟨failure, he, hu⟩
  exact hk (hu ▸ h failure he)

theorem not_ok (a : α) : ¬ Underflows (.ok a : Except Failure α) := nofun

theorem map_iff {f : α → β} : Underflows (x.map f) ↔ Underflows x := by
  cases x with
  | error failure => exact error_iff.trans error_iff.symm
  | ok a => exact iff_of_false (not_ok _) (not_ok a)

theorem bind_iff {f : α → Except Failure β} (hx : ¬ Underflows x) :
    Underflows (x >>= f) ↔ ∃ a, x = .ok a ∧ Underflows (f a) := by
  cases x with
  | error failure => exact iff_of_false (fun h => hx (error_iff.2 (error_iff.1 h))) nofun
  | ok a =>
    constructor
    · exact fun h => ⟨a, rfl, h⟩
    · rintro ⟨_, ⟨⟩, h⟩
      exact h

theorem bind_iff_of_not {f : α → Except Failure β} (hf : ∀ a, x = .ok a → ¬ Underflows (f a)) :
    Underflows (x >>= f) ↔ Underflows x := by
  cases x with
  | error failure => exact error_iff.trans error_iff.symm
  | ok a => exact iff_of_false (hf a rfl) (not_ok a)

theorem read_bind_iff {item : Bytes} {strict : Bool} {f : Int → Except Failure β} :
    Underflows (Number.read item operandLimit strict >>= f) ↔
      ∃ n, Number.read item operandLimit strict = .ok n ∧ Underflows (f n) :=
  bind_iff (not_of_fails (Number.overflows_read item operandLimit strict) (by decide))

end Underflows

/-! ## Instructions that look further -/

theorem StackOp.underflows_fetchItem_iff (keep : Bool) (n : Int) (main : Stack) :
    Underflows (fetchItem keep n main) ↔ n < 0 ∨ (main.length : Int) ≤ n := by
  unfold fetchItem
  split
  · rename_i hnone
    refine iff_of_true (Underflows.error_iff.2 rfl) ?_
    split at hnone
    · exact .inl ‹n < 0›
    · have hle : main.length ≤ n.toNat := List.getElem?_eq_none_iff.1 hnone
      omega
  · rename_i item hsome
    refine iff_of_false (Underflows.not_ok _) ?_
    split at hsome
    · cases hsome
    · obtain ⟨hlt, -⟩ := List.getElem?_eq_some_iff.1 hsome
      omega

theorem Stack.nthNumber_of_drop (top : Bytes) {item : Bytes} {below lower : Stack} {n : Nat}
    (h : below.drop n = item :: lower) (strict : Bool) :
    Stack.nthNumber (top :: below) (n + 2) strict = Number.read item operandLimit strict ∧
      below.length = n + 1 + lower.length := by
  have hlength := congrArg List.length h
  rw [List.length_drop, List.length_cons] at hlength
  refine ⟨?_, by omega⟩
  have hitem : (top :: below)[n + 1]? = some item := by
    rw [List.getElem?_cons_succ, ← Nat.add_zero n, ← List.getElem?_drop, h]
    rfl
  simp only [nthNumber, nth, Nat.add_one_sub_one, hitem]
  rfl

/-- the operands of a check of several signatures are missing if the stack is empty, or as its counts ask for them -/
theorem ManyOperands.underflows_take_iff (strict : Bool) (main : Stack) :
    Underflows (take strict main) ↔
      main = [] ∨ ∃ n : Nat, main.nthNumber 1 strict = .ok (n : Int) ∧ n ≤ keyLimit ∧
        (main.length < n + 2 ∨ ∃ m : Nat, main.nthNumber (n + 2) strict = .ok (m : Int) ∧ m ≤ n ∧
          main.length < n + m + 3) := by
  cases main with
  | nil => exact iff_of_true (Underflows.error_iff.2 rfl) (.inl rfl)
  | cons keyCount below =>
    rw [take, Underflows.read_bind_iff]
    constructor
    · rintro ⟨n, hn, h⟩
      split at h
      · cases Underflows.error_iff.1 h
      -- a count that is out of range is another failure, so this one is a natural number
      · obtain ⟨k, rfl⟩ := Int.eq_ofNat_of_zero_le (show 0 ≤ n by omega)
        refine .inr ⟨k, hn, by omega, ?_⟩
        rw [Int.toNat_natCast] at h
        cases hd : below.drop k with
        | nil => exact .inl (Nat.lt_succ_of_le (Nat.succ_le_succ (List.drop_eq_nil_iff.1 hd)))
        | cons signatureCount lower =>
          obtain ⟨hnth, hlength⟩ := Stack.nthNumber_of_drop keyCount hd strict
          simp only [hd] at h
          obtain ⟨m, hm, h⟩ := Underflows.read_bind_iff.1 h
          split at h
          · cases Underflows.error_iff.1 h
          · obtain ⟨l, rfl⟩ := Int.eq_ofNat_of_zero_le (show 0 ≤ m by omega)
            split at h
            · refine .inr ⟨l, hnth.trans hm, by omega, ?_⟩
              rw [List.length_cons, hlength]
              omega
            · exact absurd h (Underflows.not_ok _)
    · rintro (⟨⟨⟩⟩ | ⟨n, hn, hle, hmissing⟩)
      have hcount : ¬ ((n : Int) < 0 ∨ (keyLimit : Int) < n) := by omega
      refine ⟨n, hn, ?_⟩
      rw [if_neg hcount, Int.toNat_natCast]
      cases hd : below.drop n with
      | nil => exact Underflows.error_iff.2 rfl
      | cons signatureCount lower =>
        obtain ⟨hnth, hlength⟩ := Stack.nthNumber_of_drop keyCount hd strict
        rw [List.length_cons, hlength] at hmissing
        rcases hmissing with hlt | ⟨m, hm, hmn, hlt⟩
        · omega
        · have hcount' : ¬ ((m : Int) < 0 ∨ (n : Int) < m) := by omega
          have hlower : lower.length < m + 1 := by omega
          refine Underflows.read_bind_iff.2 ⟨m, hnth.symm.trans hm, ?_⟩
          rw [if_neg hcount', Int.toNat_natCast, if_pos hlower]
          exact Underflows.error_iff.2 rfl

/-! ## All instructions -/

theorem State.not_underflows_popMain {s : State} (h : 0 < s.main.length) : ¬ Underflows s.popMain := by
  unfold popMain
  match s.main, h with
  | item :: rest, _ => exact Underflows.not_ok _

theorem FlowOp.not_underflows_apply {s : State} {op : FlowOp} (h : op.depth ≤ s.main.length) :
    ¬ Underflows (op.apply s) := by
  cases op with
  | openBlock negated =>
    rw [apply]
    split
    · intro hu
      exact State.not_underflows_popMain h ((Underflows.bind_iff_of_not fun _ _ => Underflows.not_ok _).1 hu)
    · exact Underflows.not_ok _
  | turnBlock => exact Underflows.not_of_fails (fails_apply s .turnBlock) (by decide)
  | closeBlock => exact Underflows.not_of_fails (fails_apply s .closeBlock) (by decide)

section Signatures

variable {check : List Bytes → Verdict}
  (hc : ∀ signatures signature key, ∃ valid, check signatures signature key = .ok valid)

include hc

theorem SignatureOp.not_underflows_applyOne (verify : Bool) {main : Stack} (h : 2 ≤ main.length) :
    ¬ Underflows (applyOne check verify main) := by
  match main, h with
  | key :: signature :: rest, _ =>
    obtain ⟨valid, hv⟩ := hc [signature] signature key
    have hfails : Fails [.verifyFailed] (applyOne check verify (key :: signature :: rest)) := by
      simp only [applyOne, hv]
      exact .ite (fun _ => .ok _) fun _ => .ite (fun _ => .ok _) fun _ => .error .verifyFailed rfl (by decide)
    exact Underflows.not_of_fails hfails (by decide)

/-- a check of several signatures needs its operands, and nothing once they are there -/
theorem SignatureOp.underflows_applyMany_iff (strict verify : Bool) (main : Stack) :
    Underflows (applyMany strict check verify main) ↔ Underflows (ManyOperands.take strict main) := by
  refine Underflows.bind_iff_of_not fun o _ => ?_
  obtain ⟨left, hleft, -⟩ := unmatched_eq_ok (hc o.signatures) o.signatures o.keys
  simp only [hleft]
  exact Underflows.not_of_fails (fails_concludeMany verify o left) (by decide)

end Signatures

/-- an instruction that is carried out with the items of the table underflows if and only if it lacks some items -/
theorem Instruction.underflows_apply_iff {ctx : Context} {s : State} {instruction : Instruction}
    (hdepth : instruction.depth ≤ s.main.length) (htx : instruction.needsTransaction → ctx.spend.isSome) :
    Underflows (instruction.apply ctx s) ↔ instruction.Lacks ctx.strict s := by
  -- so what it can lack is what it looks for itself, and most instructions look for nothing
  have hitems : ¬ s.main.length < instruction.depth := Nat.not_lt.2 hdepth
  cases instruction with
  | stack op =>
    rw [apply, Underflows.map_iff]
    by_cases hfetch : ∃ keep, op = .fetch keep
    · obtain ⟨keep, rfl⟩ := hfetch
      obtain ⟨index, rest, hmain⟩ := List.exists_cons_of_length_pos hdepth
      rw [hmain, StackOp.apply, StackOp.operand, Underflows.read_bind_iff]
      simp only [StackOp.underflows_fetchItem_iff]
      constructor
      · rintro ⟨n, hn, hrange⟩
        have hnth : s.main.nthNumber 1 ctx.strict = .ok n := by rw [hmain]; exact hn
        refine .index hnth ?_
        rw [hmain, List.length_cons]
        omega
      · rintro (h | h | ⟨hn, hrange⟩)
        · exact absurd h hitems
        · rw [hmain] at hn hrange
          rw [List.length_cons] at hrange
          exact ⟨_, hn, by omega⟩
    · refine iff_of_false (Underflows.not_of_fails (StackOp.fails_apply_of_le _ hdepth ?_) (by decide)) ?_
      · exact fun keep he => hfetch ⟨keep, he⟩
      · rintro (h | h | h)
        · exact hitems h
        · exact hfetch ⟨_, rfl⟩
  | flow op =>
    refine iff_of_false (FlowOp.not_underflows_apply hdepth) ?_
    rintro ⟨h⟩
    exact hitems h
  | toAlt =>
    rw [apply, Underflows.map_iff]
    refine iff_of_false (State.not_underflows_popMain hdepth) ?_
    rintro ⟨h⟩
    exact hitems h
  | fromAlt =>
    rw [apply, Underflows.map_iff, State.popAlt]
    constructor
    · intro h
      cases halt : s.alt with
      | nil => exact .alt halt
      | cons item rest =>
        rw [halt] at h
        exact absurd h (Underflows.not_ok _)
    · rintro (h | h)
      · exact absurd h hitems
      · rw [h]
        exact Underflows.error_iff.2 rfl
  | codeSeparator =>
    refine iff_of_false (Underflows.not_ok _) ?_
    rintro ⟨h⟩
    exact hitems h
  | signature op =>
    obtain ⟨spend, hspend⟩ := Option.isSome_iff_exists.1 (htx rfl)
    have hc := ctx.check_eq_ok spend s.codeStart
    simp only [apply, hspend, Underflows.map_iff]
    cases op with
    | one verify =>
      refine iff_of_false (SignatureOp.not_underflows_applyOne hc verify hdepth) ?_
      rintro ⟨h⟩
      exact hitems h
    | many verify =>
      have hne : s.main ≠ [] := List.ne_nil_of_length_pos hdepth
      rw [SignatureOp.apply, SignatureOp.underflows_applyMany_iff hc, ManyOperands.underflows_take_iff]
      constructor
      · rintro (h | ⟨n, hn, hle, h | ⟨m, hm, hmn, h⟩⟩)
        · exact absurd h hne
        · exact .keys hn hle h
        · exact .signatures hn hle hm hmn h
      · rintro (h | h | h | ⟨hn, hle, h⟩ | ⟨hn, hle, hm, hmn, h⟩)
        · exact absurd h hitems
        · exact .inr ⟨_, hn, hle, .inl h⟩
        · exact .inr ⟨_, hn, hle, .inr ⟨_, hm, hmn, h⟩⟩

/-- a stack underflow of an opcode is one of its instruction, since too many items afterwards are another failure -/
theorem Opcode.conclude_underflows_iff (op : Opcode) (s : State) (x : Except Failure (State × Action)) :
    Underflows (op.conclude s x).2 ↔ Underflows x := by
  cases x with
  | error failure =>
    rw [conclude, Underflows.error_iff, Underflows.error_iff]
    rfl
  | ok result =>
    refine iff_of_false ?_ (Underflows.not_ok _)
    rintro ⟨failure, he, hk⟩
    obtain ⟨-, hf, -⟩ := State.sized_eq_error (Prod.ext rfl he)
    cases hf ▸ hk

/-- **A stack underflow is told exactly for missing items.** An executed opcode that means something takes no item by an
index where there is none, and fails with a stack underflow if and only if it `Lacks` items; then the state stays, and
the message has the name of the opcode in front. -/
theorem underflow_exact (ctx : Context) (s : State) (op : Opcode) (instruction : Instruction)
    (hi : op.instruction? = some instruction) (hx : s.executing)
    (htx : instruction.needsTransaction → ctx.spend.isSome) :
    (∀ s', ((Operation.code op).perform ctx).run s ≠ .error .outOfRange s') ∧
    ((Operation.code op).FailsWith ctx s .stackUnderflow ↔ instruction.Lacks ctx.strict s) ∧
    ∀ s' failure, execute ctx (.code op) s = (s', .error failure) → failure.kind = .stackUnderflow →
      s' = s ∧ ∃ text, failure.message = op.name ++ ": " ++ text := by
  refine ⟨(Operation.code op).run_perform_ne ctx s, ?_, ?_⟩
  · show Underflows (execute ctx (.code op) s).2 ↔ _
    rw [execute_code_eq hi (by rw [hx, Bool.true_or]), op.conclude_underflows_iff, Instruction.ready_eq_require hx htx]
    by_cases hdepth : instruction.depth ≤ s.main.length
    · rw [Stack.require_eq_ok hdepth]
      exact Instruction.underflows_apply_iff hdepth htx
    · rw [Stack.require_eq_error (Nat.not_le.1 hdepth)]
      exact iff_of_true (Underflows.error_iff.2 rfl) (.items (Nat.not_le.1 hdepth))
  · intro s' failure he hk
    rcases execute_eq_error he with ⟨hs, hrefused⟩ | ⟨action, -, hf, -⟩
    · refine ⟨hs, ?_⟩
      cases hrefused with
      | disabled hd => cases hk
      | unknown hn _ => cases hk
      | @unready _ _ failure _ _ | @failed _ _ failure _ _ => exact ⟨failure.message, rfl⟩
    · cases hf ▸ hk

/-- two keys and a signature, without the item that is not used: no count is too large, and yet an item is missing -/
theorem underflow_exact_unused :
    let input : Input := ⟨⟨⟨List.replicate 32 0, rfl⟩, 0⟩, [], 0, []⟩
    let spend : Spend := ⟨⟨1, [input], [], 0⟩, 0, Nat.zero_lt_one⟩
    let s : State := ⟨[[2], [3], [4], [1], [5]], [], .none, 0, 0⟩
    (Operation.code (.checkMany true)).FailsWith ⟨⟨[]⟩, some spend, true⟩ s .stackUnderflow := by
  intro input spend s
  have hlacks : (Instruction.signature (.many true)).Lacks true s :=
    .signatures (n := 2) (m := 1) rfl (by decide) rfl (by decide) (by decide)
  obtain ⟨-, hexact, -⟩ :=
    underflow_exact ⟨⟨[]⟩, some spend, true⟩ s (.checkMany true) _ (Opcode.instruction?_checkMany true) rfl fun _ => rfl
  exact hexact.2 hlacks

end BitcoinScript
