/-
How long items get. The length of an item is limited only where a script is decoded, and what a run makes of its items
is not checked again. It need not be: every instruction leaves items that were there, a digest, or a number that is
small, because what it is computed from is.

Results:
- `StackOp.number_of_apply`: an instruction that makes a number leaves it on items that were there, and it is small.
- `StackOp.bounded_apply`: an instruction on the main stack makes no item longer than a push may be.
- `State.next_bounded`, `State.next_number`: so a step of the machine makes none, whether it fails or not.
- `item_sizes`: after any calls no item is longer than 520 bytes, the most that may be pushed. If an executed opcode
  that pushes a number comes next, a step fails for another reason than the number of items, and leaves the state; or it
  leaves what is written for a number on items of the main stack that were there, whether the check of the number of
  items fails then or not. What is written is minimal, and at most five bytes long.
-/
import BitcoinScript.Proofs.Decoding.Concatenation
import BitcoinScript.Proofs.Number.Arithmetic
import BitcoinScript.Proofs.Rearrangement
import BitcoinScript.Proofs.Session.Reach

namespace BitcoinScript

/-! ## Bounded items -/

/-- no item is longer than a push may be -/
def Stack.Bounded (stack : Stack) : Prop :=
  ∀ item ∈ stack, item.length ≤ itemLimit

namespace Stack.Bounded

variable {stack rest : Stack} {item : Bytes}

theorem cons (hitem : item.length ≤ itemLimit) (h : Bounded stack) : Bounded (item :: stack) :=
  List.forall_mem_cons.2 ⟨hitem, h⟩

theorem head (h : Bounded (item :: stack)) : item.length ≤ itemLimit :=
  h item List.mem_cons_self

theorem subset (h : Bounded stack) (hsub : rest ⊆ stack) : Bounded rest :=
  fun item hmem => h item (hsub hmem)

end Stack.Bounded

/-- no item on the two stacks is longer than a push may be -/
structure State.Bounded (s : State) : Prop where
  main : s.main.Bounded
  alt : s.alt.Bounded

/-- a number that is written in at most five bytes -/
def Number.IsSmall (n : Int) : Prop :=
  n.natAbs < 0x80 * 0x100 ^ 4

theorem Number.IsSmall.length_encode_le {n : Int} (h : IsSmall n) : (encode n).length ≤ 5 :=
  Number.length_encode_le (k := 4) h

theorem Stack.Bounded.number {rest : Stack} {n : Int} (hn : Number.IsSmall n) (h : rest.Bounded) :
    Bounded (Number.encode n :: rest) :=
  h.cons (Nat.le_trans hn.length_encode_le (by decide))

theorem Number.isSmall_of_le {n : Int} (h : n.natAbs ≤ 2 ^ 32 - 2) : IsSmall n :=
  Nat.lt_of_le_of_lt h (by decide)

theorem Number.isSmall_truth (b : Bool) : IsSmall (truth b) :=
  isSmall_of_le (Nat.le_trans (natAbs_truth_le b) (by decide))

/-! ## Instructions that make numbers -/

/-- whether the instruction leaves a number that it has made on top -/
def StackOp.makesNumber : StackOp → Bool
  | .pushNumber _ | .pushDepth | .pushSize | .equal false | .unary _ | .binary _ | .within => true
  | _ => false

/-- whether the check of signatures leaves its result on top -/
def SignatureOp.makesNumber : SignatureOp → Bool
  | .one verify | .many verify => !verify

/-- whether the instruction leaves a number that it has made on top -/
def Instruction.makesNumber : Instruction → Bool
  | .stack op => op.makesNumber
  | .signature op => op.makesNumber
  | _ => false

/-- the opcodes that push a number: a constant, the number of items, the length of the top item, the result of a
comparison, of arithmetic, or of a check of signatures -/
def Opcode.numberPushing : List UInt8 :=
  [0x4f, 0x51, 0x52, 0x53, 0x54, 0x55, 0x56, 0x57, 0x58, 0x59, 0x5a, 0x5b, 0x5c, 0x5d, 0x5e, 0x5f, 0x60, -- PUSHNUM
    0x74, 0x82,                                     -- DEPTH SIZE
    0x87,                                           -- EQUAL
    0x8b, 0x8c, 0x8f, 0x90, 0x91, 0x92,             -- 1ADD 1SUB NEGATE ABS NOT 0NOTEQUAL
    0x93, 0x94, 0x9a, 0x9b,                         -- ADD SUB BOOLAND BOOLOR
    0x9c, 0x9e, 0x9f, 0xa0, 0xa1, 0xa2,             -- comparisons of numbers
    0xa3, 0xa4, 0xa5,                               -- MIN MAX WITHIN
    0xac, 0xae]                                     -- CHECKSIG CHECKMULTISIG

/-- these opcodes are the ones whose instruction makes a number -/
theorem Opcode.mem_numberPushing_iff (op : Opcode) :
    op.byte ∈ numberPushing ↔ ∃ instruction, op.instruction? = some instruction ∧ instruction.makesNumber := by
  constructor
  · have hall : ∀ byte ∈ numberPushing, (Opcode.instruction? ⟨byte⟩).any Instruction.makesNumber := by decide +kernel
    exact fun h => (Option.any_eq_true _ _).1 (hall op.byte h)
  · have htable : ∀ entry ∈ instructionTable, entry.2.makesNumber → entry.1 ∈ numberPushing := by decide +kernel
    rintro ⟨instruction, hi, hmakes⟩
    exact htable _ (mem_of_instruction? hi) hmakes

theorem StackOp.natAbs_operand_lt {strict : Bool} {item : Bytes} {x : Int} (h : operand strict item = .ok x) :
    x.natAbs < 2 ^ 31 := by
  obtain ⟨hlen, rfl⟩ := Number.of_read_eq_ok h
  exact Number.natAbs_lt_of_length_le (k := 3) hlen

/-- a number that an instruction makes is left on items that were there; and it is small, if the number of the items and
their lengths are within the limits -/
theorem StackOp.number_of_apply {strict : Bool} {op : StackOp} {main main' : Stack} {action : Action}
    (hop : op.makesNumber) (hconst : ∀ n, op = .pushNumber n → Number.IsSmall n) (hmain : main.Bounded)
    (hlength : main.length ≤ stackLimit) (h : op.apply strict main = .ok (main', action)) :
    ∃ n rest, main' = Number.encode n :: rest ∧ rest <:+ main ∧ Number.IsSmall n := by
  cases op with
  | pushNumber n =>
    cases h
    exact ⟨n, main, rfl, List.suffix_refl main, hconst n rfl⟩
  | pushDepth =>
    cases h
    exact ⟨main.length, main, rfl, List.suffix_refl main, Number.isSmall_of_le (Nat.le_trans hlength (by decide))⟩
  | pushSize =>
    cases main with
    | nil => cases h
    | cons item rest =>
      cases h
      exact ⟨item.length, item :: rest, rfl, List.suffix_refl _,
        Number.isSmall_of_le (Nat.le_trans hmain.head (by decide))⟩
  | equal verify =>
    cases verify with
    | true => cases hop
    | false =>
      obtain _ | ⟨b, _ | ⟨a, rest⟩⟩ := main <;> cases h
      exact ⟨truth (a == b), rest, rfl, ⟨[b, a], rfl⟩, Number.isSmall_truth _⟩
  | unary op =>
    cases main with
    | nil => cases h
    | cons item rest =>
      obtain ⟨x, hx, h⟩ := exists_of_bind_eq_ok h
      cases h
      exact ⟨op.eval x, rest, rfl, ⟨[item], rfl⟩, Number.isSmall_of_le (op.natAbs_eval_le (natAbs_operand_lt hx))⟩
  | binary op =>
    obtain _ | ⟨b, _ | ⟨a, rest⟩⟩ := main
    · cases h
    · cases h
    obtain ⟨x, hx, h⟩ := exists_of_bind_eq_ok h
    obtain ⟨y, hy, h⟩ := exists_of_bind_eq_ok h
    cases h
    exact ⟨op.eval x y, rest, rfl, ⟨[b, a], rfl⟩,
      Number.isSmall_of_le (op.natAbs_eval_le (natAbs_operand_lt hx) (natAbs_operand_lt hy))⟩
  | within =>
    obtain _ | ⟨c, _ | ⟨b, _ | ⟨a, rest⟩⟩⟩ := main
    · cases h
    · cases h
    · cases h
    obtain ⟨x, -, h⟩ := exists_of_bind_eq_ok h
    obtain ⟨low, -, h⟩ := exists_of_bind_eq_ok h
    obtain ⟨high, -, h⟩ := exists_of_bind_eq_ok h
    cases h
    exact ⟨truth (low ≤ x && x < high), rest, rfl, ⟨[c, b, a], rfl⟩, Number.isSmall_truth _⟩
  | nop | ignored _ | verify | unspendable | shuffle _ | dupIfTrue | fetch _ | equalNumbersVerify | hash _ => cases hop

theorem SignatureOp.rest_of_apply {strict : Bool} {check : List Bytes → Verdict} {op : SignatureOp}
    {main main' : Stack} {action : Action} (h : op.apply strict check main = .ok (main', action)) :
    ∃ rest, rest <:+ main ∧
      ((op.makesNumber ∧ ∃ valid, main' = Number.encode (truth valid) :: rest) ∨
        (op.makesNumber = false ∧ main' = rest)) := by
  cases op with
  | one verify =>
    obtain _ | ⟨key, _ | ⟨signature, rest⟩⟩ := main
    · cases h
    · cases h
    obtain ⟨valid, -, h⟩ := exists_of_bind_eq_ok h
    refine ⟨rest, ⟨[key, signature], rfl⟩, ?_⟩
    cases verify with
    | false =>
      cases h
      exact .inl ⟨rfl, valid, rfl⟩
    | true =>
      cases valid <;> cases h
      exact .inr ⟨rfl, rfl⟩
  | many verify =>
    obtain ⟨o, ho, h⟩ := exists_of_bind_eq_ok h
    obtain ⟨left, -, h⟩ := exists_of_bind_eq_ok h
    obtain ⟨keyCount, signatureCount, unused, hmain, -⟩ := ManyOperands.take_eq_ok_iff.1 ho
    refine ⟨o.rest, ⟨keyCount :: (o.keys ++ signatureCount :: (o.signatures ++ [unused])), ?_⟩, ?_⟩
    · rw [hmain]
      simp only [List.cons_append, List.append_assoc, List.nil_append]
    cases verify with
    | false =>
      cases h
      exact .inl ⟨rfl, left.isEmpty, rfl⟩
    | true =>
      simp only [concludeMany] at h
      cases hl : left.isEmpty <;> rw [hl] at h <;> cases h
      exact .inr ⟨rfl, rfl⟩

/-! ## Instructions that make none -/

theorem Shuffle.subset_of_apply {kind : Shuffle} {main main' : Stack} {item : Bytes}
    (h : kind.apply? main = some (main', item)) : main' ⊆ main := by
  unfold Shuffle.apply? at h
  split at h <;> cases h <;> intro item hmem <;> simp only [List.mem_cons] at * <;> tauto

/-- every other instruction on the main stack leaves only items that were there, and perhaps a digest -/
theorem StackOp.mem_of_apply {strict : Bool} {op : StackOp} {main main' : Stack} {action : Action}
    (hop : op.makesNumber = false) (h : op.apply strict main = .ok (main', action)) :
    ∀ item ∈ main', item ∈ main ∨ ∃ (digest : Hash.Digest) (bs : Bytes), item = digest.apply bs := by
  intro item hmem
  cases op with
  | nop | ignored _ =>
    cases h
    exact .inl hmem
  | unspendable => cases h
  | verify =>
    cases main with
    | nil => cases h
    | cons top rest =>
      simp only [apply] at h
      split at h <;> cases h
      exact .inl (List.mem_cons_of_mem _ hmem)
  | shuffle kind =>
    simp only [apply] at h
    split at h
    · rename_i ha
      cases h
      exact .inl (Shuffle.subset_of_apply ha hmem)
    · cases h
  | dupIfTrue =>
    cases main with
    | nil => cases h
    | cons top rest =>
      simp only [apply] at h
      split at h <;> cases h
      · rcases List.mem_cons.1 hmem with rfl | hmem
        · exact .inl List.mem_cons_self
        · exact .inl hmem
      · exact .inl hmem
  | fetch keep =>
    cases main with
    | nil => cases h
    | cons top rest =>
      obtain ⟨index, -, h⟩ := exists_of_bind_eq_ok h
      unfold fetchItem at h
      split at h
      · cases h
      · rename_i fetched hget
        cases h
        have hfetched : fetched ∈ rest := by
          split at hget
          · cases hget
          · exact List.mem_of_getElem? hget
        rcases List.mem_cons.1 hmem with rfl | hmem
        · exact .inl (List.mem_cons_of_mem _ hfetched)
        · refine .inl (List.mem_cons_of_mem _ ?_)
          cases keep with
          | true => exact hmem
          | false => exact List.mem_of_mem_eraseIdx hmem
  | equal verify =>
    cases verify with
    | false => cases hop
    | true =>
      obtain _ | ⟨b, _ | ⟨a, rest⟩⟩ := main
      · cases h
      · cases h
      simp only [apply] at h
      split at h <;> cases h
      exact .inl (List.mem_cons_of_mem _ (List.mem_cons_of_mem _ hmem))
  | equalNumbersVerify =>
    obtain _ | ⟨b, _ | ⟨a, rest⟩⟩ := main
    · cases h
    · cases h
    obtain ⟨x, -, h⟩ := exists_of_bind_eq_ok h
    obtain ⟨y, -, h⟩ := exists_of_bind_eq_ok h
    split at h <;> cases h
    exact .inl (List.mem_cons_of_mem _ (List.mem_cons_of_mem _ hmem))
  | hash digest =>
    cases main with
    | nil => cases h
    | cons top rest =>
      cases h
      rcases List.mem_cons.1 hmem with rfl | hmem
      · exact .inr ⟨digest, top, rfl⟩
      · exact .inl (List.mem_cons_of_mem _ hmem)
  | pushNumber _ | pushDepth | pushSize | unary _ | binary _ | within => cases hop

/-! ## Steps -/

theorem StackOp.bounded_apply {strict : Bool} {op : StackOp} {main main' : Stack} {action : Action}
    (hconst : ∀ n, op = .pushNumber n → Number.IsSmall n) (hmain : main.Bounded) (hlength : main.length ≤ stackLimit)
    (h : op.apply strict main = .ok (main', action)) : main'.Bounded := by
  cases hop : op.makesNumber with
  | true =>
    obtain ⟨n, rest, rfl, hrest, hn⟩ := number_of_apply hop hconst hmain hlength h
    exact (hmain.subset hrest.subset).number hn
  | false =>
    intro item hmem
    rcases mem_of_apply hop h item hmem with hold | ⟨digest, bs, rfl⟩
    · exact hmain item hold
    · exact Nat.le_trans (digest.length_apply_le bs) (by decide)

theorem SignatureOp.bounded_apply {strict : Bool} {check : List Bytes → Verdict} {op : SignatureOp}
    {main main' : Stack} {action : Action} (hmain : main.Bounded)
    (h : op.apply strict check main = .ok (main', action)) : main'.Bounded := by
  obtain ⟨rest, hrest, ⟨-, valid, rfl⟩ | ⟨-, rfl⟩⟩ := rest_of_apply h
  · exact (hmain.subset hrest.subset).number (Number.isSmall_truth valid)
  · exact hmain.subset hrest.subset

theorem Opcode.isSmall_of_pushNumber {op : Opcode} {stackOp : StackOp} (hi : op.instruction? = some (.stack stackOp)) :
    ∀ n, stackOp = .pushNumber n → Number.IsSmall n := by
  rintro n rfl
  exact Nat.lt_trans (natAbs_lt_of_pushNumber hi) (by decide)

section

variable {ctx : Context} {op : Opcode} {instruction : Instruction} {operation : Operation} {s s' : State}
  {action : Action}

theorem Instruction.bounded_apply (hi : op.instruction? = some instruction) (hs : s.Bounded)
    (hitems : s.items ≤ stackLimit) (h : instruction.apply ctx s = .ok (s', action)) : s'.Bounded := by
  have hlength : s.main.length ≤ stackLimit := Nat.le_trans (Nat.le_add_right _ _) hitems
  cases apply_eq_ok_iff.1 h with
  | stack h => exact ⟨StackOp.bounded_apply (Opcode.isSmall_of_pushNumber hi) hs.main hlength h, hs.alt⟩
  | flow h =>
    obtain ⟨main, branches, hsuffix, rfl⟩ := FlowOp.apply_eq_ok h
    exact ⟨hs.main.subset hsuffix.subset, hs.alt⟩
  | toAlt hm =>
    have hmain : Stack.Bounded (_ :: _) := hm ▸ hs.main
    exact ⟨hmain.subset (List.subset_cons_self _ _), hs.alt.cons hmain.head⟩
  | fromAlt ha =>
    have halt : Stack.Bounded (_ :: _) := ha ▸ hs.alt
    exact ⟨hs.main.cons halt.head, halt.subset (List.subset_cons_self _ _)⟩
  | codeSeparator => exact ⟨hs.main, hs.alt⟩
  | signature _ h => exact ⟨SignatureOp.bounded_apply hs.main h, hs.alt⟩

theorem Instruction.number_of_apply (hi : op.instruction? = some instruction) (hmakes : instruction.makesNumber)
    (hs : s.Bounded) (hitems : s.items ≤ stackLimit) (h : instruction.apply ctx s = .ok (s', action)) :
    ∃ n rest, s'.main = Number.encode n :: rest ∧ rest <:+ s.main ∧ Number.IsSmall n := by
  have hlength : s.main.length ≤ stackLimit := Nat.le_trans (Nat.le_add_right _ _) hitems
  cases apply_eq_ok_iff.1 h with
  | stack h => exact StackOp.number_of_apply hmakes (Opcode.isSmall_of_pushNumber hi) hs.main hlength h
  | signature _ h =>
    obtain ⟨rest, hrest, ⟨-, valid, hmain⟩ | ⟨hnot, -⟩⟩ := SignatureOp.rest_of_apply h
    · exact ⟨truth valid, rest, hmain, hrest, Number.isSmall_truth valid⟩
    · cases hmakes.symm.trans hnot
  | flow _ | toAlt _ | fromAlt _ | codeSeparator => cases hmakes

/-- an operation whose push is not too long makes no item longer than that, even if it fails -/
theorem execute_bounded (hpush : ∀ data, operation = .push data → data.length ≤ itemLimit) (hs : s.Bounded)
    (hitems : s.items ≤ stackLimit) : (execute ctx operation s).1.Bounded := by
  rcases execute_cases ctx operation s with ⟨action, -, he⟩ | ⟨failure, -, he⟩ | ⟨s', action, hc, he⟩ <;> rw [he]
  · exact hs
  · exact hs
  · cases hc with
    | push data hx => exact ⟨hs.main.cons (hpush data rfl), hs.alt⟩
    | code hd hi hx hr ha => exact Instruction.bounded_apply hi hs hitems ha

/-- an executed opcode that pushes a number fails and leaves the state, or leaves a small number on items that were
there -/
theorem execute_number (ctx : Context) (hop : op.byte ∈ Opcode.numberPushing) (hx : s.executing) (hs : s.Bounded)
    (hitems : s.items ≤ stackLimit) :
    (∃ failure, execute ctx (.code op) s = (s, .error failure) ∧ failure.kind ≠ .scriptSizeExceeded) ∨
      ∃ n rest, (execute ctx (.code op) s).1.main = Number.encode n :: rest ∧ rest <:+ s.main ∧ Number.IsSmall n := by
  obtain ⟨instruction, hi, hmakes⟩ := op.mem_numberPushing_iff.1 hop
  rcases execute_cases ctx (.code op) s with ⟨action, hk, -⟩ | ⟨failure, hf, he⟩ | ⟨s', action, hc, he⟩
  · cases hk with
    | code hx' _ _ => cases hx.symm.trans hx'
  · have hnot : FailureKind.scriptSizeExceeded ∉ refusalKinds := by decide
    exact .inl ⟨failure, he, fun hk => hnot (hk ▸ hf.kind_mem)⟩
  · rw [he]
    cases hc with
    | code hd hi' hx' hr ha =>
      cases hi.symm.trans hi'
      exact .inr (Instruction.number_of_apply hi hmakes hs hitems ha)

end

/-- no push of the program is too long -/
def Program.Bounded (program : Program) : Prop :=
  ∀ data, .push data ∈ program.operations → data.length ≤ itemLimit

theorem Program.bounded_of_decode {script : Bytes} {program : Program} (h : decode script = .ok program) :
    program.Bounded := by
  obtain ⟨pieces, -, hfit, -, rfl⟩ := pieces_of_decode h
  intro data hmem
  rw [operations, Piece.map_layOut (g := Piece.operation) (fun _ _ => rfl)] at hmem
  obtain ⟨piece, hpiece, hoperation⟩ := List.mem_map.1 hmem
  exact hfit.pushes piece hpiece data hoperation

theorem State.next_bounded {ctx : Context} {s : State} (hpushes : ctx.program.Bounded) (hs : s.Bounded)
    (hitems : s.items ≤ stackLimit) : (s.next ctx).1.Bounded := by
  have hexecute : ∀ operation, ctx.program.operations[s.pc]? = some operation →
      (execute ctx operation s).1.Bounded := by
    intro operation hop
    refine execute_bounded ?_ hs hitems
    rintro data rfl
    exact hpushes data (List.mem_of_getElem? hop)
  rcases next_cases ctx s with
    ⟨operation, s', action, hop, he, hn⟩ | ⟨operation, s', failure, hop, he, hn⟩ | ⟨-, -, hn⟩ | ⟨-, -, hn⟩ <;> rw [hn]
  · have hs' := hexecute operation hop
    rw [he] at hs'
    exact ⟨hs'.main, hs'.alt⟩
  · have hs' := hexecute operation hop
    rw [he] at hs'
    exact hs'
  · exact hs
  · exact hs

theorem State.next_number {ctx : Context} {op : Opcode} {s : State}
    (hget : ctx.program.operations[s.pc]? = some (.code op)) (hop : op.byte ∈ Opcode.numberPushing) (hx : s.executing)
    (hs : s.Bounded) (hitems : s.items ≤ stackLimit) :
    (∃ failure, s.next ctx = (s, .ended (.failed failure)) ∧ failure.kind ≠ .scriptSizeExceeded) ∨
      ∃ n rest, (s.next ctx).1.main = Number.encode n :: rest ∧ rest <:+ s.main ∧ Number.IsSmall n := by
  have hnumber := execute_number ctx hop hx hs hitems
  rcases next_cases ctx s with
    ⟨operation, s', action, hget', he, hn⟩ | ⟨operation, s', failure, hget', he, hn⟩ | ⟨hend, -⟩ | ⟨hend, -⟩
  · cases hget.symm.trans hget'
    rw [he] at hnumber
    rcases hnumber with ⟨failure, hf, -⟩ | hnumber
    · cases hf
    · rw [hn]
      exact .inr hnumber
  · cases hget.symm.trans hget'
    rw [he] at hnumber
    rcases hnumber with ⟨failure', hf, hk⟩ | hnumber
    · cases hf
      exact .inl ⟨failure, hn, hk⟩
    · rw [hn]
      exact .inr hnumber
  · cases hget.symm.trans (List.getElem?_eq_none hend)
  · cases hget.symm.trans (List.getElem?_eq_none hend)

/-! ## Runs -/

/-- wherever the run of a program comes to, no item is longer than a push may be. A number of items is small because
there are not too many of them -/
theorem Context.bounded_of_reach {ctx : Context} {n : Nat} {s : State} (hpushes : ctx.program.Bounded)
    (h : ctx.reach n = some s) : s.Bounded := by
  refine reach_induction (P := State.Bounded) ⟨nofun, nofun⟩ ?_ h
  intro t t' step hreach ht hn
  have hbounded : (t.next ctx).1.Bounded := State.next_bounded hpushes ht (items_le_of_reach hreach)
  rw [hn] at hbounded
  exact hbounded

theorem State.Stands.bounded {ctx : Context} {s : State} {ending? : Option Ending} (hpushes : ctx.program.Bounded)
    (h : s.Stands ctx ending?) : s.Bounded := by
  cases h with
  | before hreach => exact Context.bounded_of_reach hpushes hreach
  | after hreach hn =>
    have hbounded := next_bounded hpushes (Context.bounded_of_reach hpushes hreach) (Context.items_le_of_reach hreach)
    rw [hn] at hbounded
    exact hbounded

/-- **The sizes of items.** After any calls on a session, in whatever state it has, no item on the two stacks is longer
than 520 bytes; and an executed opcode that pushes a number leaves a minimal item of at most five bytes on items that
were there, or fails and leaves the state. -/
theorem item_sizes (script : Bytes) (spend : Option Spend) (strict : Bool) (calls : List Call) :
    let h := (History.new script spend strict).calls calls
    (∀ s, h.session.run.state? = some s → ∀ item, item ∈ s.main ∨ item ∈ s.alt → item.length ≤ 520) ∧
    ∀ program op, Program.decode h.script = .ok program → h.session.run.ending? = none →
      let s := h.session.run.state?.getD .initial
      program.operations[s.pc]? = some (.code op) → s.executing → op.byte ∈ Opcode.numberPushing →
      ∃ s', h.session.step.1.run.state? = some s' ∧
        ((s' = s ∧ ∃ failure, h.session.step.1.run.ending? = some (.failed failure) ∧
            failure.kind ≠ .scriptSizeExceeded) ∨
          ∃ n rest, s'.main = Number.encode n :: rest ∧ rest <:+ s.main ∧ Number.isMinimal (Number.encode n) ∧
            (Number.encode n).length ≤ 5) := by
  intro h
  have hfollows : h.Follows strict := (History.Follows.new script spend strict).calls calls
  refine ⟨?_, ?_⟩
  · intro s hs item hmem
    obtain ⟨program, hp, hstands⟩ := History.stands script spend strict calls s hs
    have hbounded := hstands.bounded (Program.bounded_of_decode (hfollows.script_eq.symm.trans hp))
    exact hmem.elim (hbounded.main item) (hbounded.alt item)
  · intro program op hp hgoing s hget hx hop
    let ctx : Context := ⟨program, h.spend, strict⟩
    have hget : ctx.program.operations[s.pc]? = some (.code op) := hget
    obtain ⟨hstate, hending⟩ := Session.step_of_ok (hfollows.script_eq.trans hp) hgoing
    rw [hfollows.spend_eq, hfollows.strict_eq] at hstate hending
    have hreach : ctx.reach s.pc = some s := History.reach_of_going hp hgoing
    have hbounded : s.Bounded := Context.bounded_of_reach (Program.bounded_of_decode hp) hreach
    refine ⟨_, hstate, ?_⟩
    rcases State.next_number hget hop hx hbounded (Context.items_le_of_reach hreach) with
      ⟨failure, hn, hk⟩ | ⟨n, rest, hmain, hrest, hn⟩
    · rw [hending]
      exact .inl ⟨congrArg Prod.fst hn, failure, congrArg (fun r => r.2.ending?) hn, hk⟩
    · exact .inr ⟨n, rest, hmain, hrest, Number.isMinimal_encode n, hn.length_encode_le⟩

/-- the fifth byte: the sum of the largest operands, of four bytes each -/
theorem item_sizes_sum :
    let h := (History.new [0x04, 0xff, 0xff, 0xff, 0x7f, 0x76, 0x93] none true).calls [.step, .step]
    let s : State := ⟨[[0xff, 0xff, 0xff, 0x7f], [0xff, 0xff, 0xff, 0x7f]], [], .none, 2, 0⟩
    let program : Program :=
      ⟨[⟨0, [0x04, 0xff, 0xff, 0xff, 0x7f], .push [0xff, 0xff, 0xff, 0x7f]⟩, ⟨5, [0x76], .code ⟨0x76⟩⟩,
        ⟨6, [0x93], .code ⟨0x93⟩⟩]⟩
    Program.decode h.script = .ok program ∧ h.session.run.ending? = none ∧ h.session.run.state? = some s ∧
      (∀ item, item ∈ s.main ∨ item ∈ s.alt → item.length ≤ 520) ∧
      ∃ s', h.session.step.1.run.state? = some s' ∧ s'.main = [[0xfe, 0xff, 0xff, 0xff, 0x00]] ∧
        ((s' = s ∧ ∃ failure, h.session.step.1.run.ending? = some (.failed failure) ∧
            failure.kind ≠ .scriptSizeExceeded) ∨
          ∃ n rest, s'.main = Number.encode n :: rest ∧ rest <:+ s.main ∧ Number.isMinimal (Number.encode n) ∧
            (Number.encode n).length ≤ 5) := by
  intro h s program
  have hp : Program.decode h.script = .ok program := by decide +kernel
  have hgoing : h.session.run.ending? = none := by decide +kernel
  have hs : h.session.run.state? = some s := by decide +kernel
  obtain ⟨hsizes, hnumber⟩ := item_sizes [0x04, 0xff, 0xff, 0xff, 0x7f, 0x76, 0x93] none true [.step, .step]
  obtain ⟨s', hs', hleft⟩ := hnumber program ⟨0x93⟩ hp hgoing (by decide +kernel) (by decide +kernel) (by decide)
  have hmain : h.session.step.1.run.state?.map State.main = some [[0xfe, 0xff, 0xff, 0xff, 0x00]] := by decide +kernel
  have hs' : h.session.step.1.run.state? = some s' := hs'
  rw [hs', Option.map_some, Option.some.injEq] at hmain
  have hbefore : h.session.run.state?.getD .initial = s := by rw [hs, Option.getD_some]
  exact ⟨hp, hgoing, hs, hsizes s hs, s', hs', hmain, hbefore ▸ hleft⟩

end BitcoinScript
