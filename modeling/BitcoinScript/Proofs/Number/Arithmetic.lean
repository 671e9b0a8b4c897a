/-
The numeric opcodes. Each reads its operands from the deepest up, computes a number, and puts what is written for it in
their place; if an operand is refused, it fails and leaves them. A result may be larger than an operand may be, and is
then written all the same, but is refused when it is read.

Results:
- `Opcode.Computes`: what each opcode makes of the values of its operands.
- `StackOp.Evaluates.apply_eq_ok`, `StackOp.Evaluates.fails_apply`: an instruction reads all its operands or fails.
- `numeric_opcodes_compute`: let the operands lie on top of the stack, and let `r` be the number that the opcode makes
  of their values in signed magnitude, the deepest operand first;
  - if all operands are read as numbers, exactly these items are replaced by what is written for `r`; in words of 64
    bits with a sign, no step of reading them and computing `r` overflows; and `r` is at most twice the largest operand;
  - what is written for it has at most five bytes and is minimal, and it is read as an operand again if and only if `r`
    has less than 32 bits;
  - if an operand is refused, the opcode fails for that, and the state stays.
-/
import Mathlib.Algebra.Order.Group.Unbundled.Int
import Mathlib.Data.List.Forall2
import BitcoinScript.Proofs.Number.Words
import BitcoinScript.Proofs.Operation

namespace BitcoinScript

/-- what the numeric opcodes make of the values of their operands, the deepest first -/
inductive Opcode.Computes : Opcode → List Int → Int → Prop where
  | increment (x : Int) : Computes ⟨0x8b⟩ [x] (x + 1)
  | decrement (x : Int) : Computes ⟨0x8c⟩ [x] (x - 1)
  | negate (x : Int) : Computes ⟨0x8f⟩ [x] (-x)
  | abs (x : Int) : Computes ⟨0x90⟩ [x] (|x|)
  | not (x : Int) : Computes ⟨0x91⟩ [x] (truth (x = 0))
  | notZero (x : Int) : Computes ⟨0x92⟩ [x] (truth (x ≠ 0))
  | add (x y : Int) : Computes ⟨0x93⟩ [x, y] (x + y)
  | sub (x y : Int) : Computes ⟨0x94⟩ [x, y] (x - y)
  | and (x y : Int) : Computes ⟨0x9a⟩ [x, y] (truth (x ≠ 0 ∧ y ≠ 0))
  | or (x y : Int) : Computes ⟨0x9b⟩ [x, y] (truth (x ≠ 0 ∨ y ≠ 0))
  | equal (x y : Int) : Computes ⟨0x9c⟩ [x, y] (truth (x = y))
  | notEqual (x y : Int) : Computes ⟨0x9e⟩ [x, y] (truth (x ≠ y))
  | less (x y : Int) : Computes ⟨0x9f⟩ [x, y] (truth (x < y))
  | greater (x y : Int) : Computes ⟨0xa0⟩ [x, y] (truth (x > y))
  | lessOrEqual (x y : Int) : Computes ⟨0xa1⟩ [x, y] (truth (x ≤ y))
  | greaterOrEqual (x y : Int) : Computes ⟨0xa2⟩ [x, y] (truth (x ≥ y))
  | min (x y : Int) : Computes ⟨0xa3⟩ [x, y] (min x y)
  | max (x y : Int) : Computes ⟨0xa4⟩ [x, y] (max x y)
  | within (x low high : Int) : Computes ⟨0xa5⟩ [x, low, high] (truth (low ≤ x ∧ x < high))

/-- what the numeric instructions make of the values of their operands, the deepest first -/
inductive StackOp.Evaluates : StackOp → List Int → Int → Prop where
  | unary (op : UnaryOp) (x : Int) : Evaluates (.unary op) [x] (op.eval x)
  | binary (op : BinaryOp) (x y : Int) : Evaluates (.binary op) [x, y] (op.eval x y)
  | within (x low high : Int) : Evaluates .within [x, low, high] (truth (low ≤ x && x < high))

theorem Opcode.Computes.evaluates {code : Opcode} {values : List Int} {r : Int} (h : code.Computes values r) :
    ∃ op : StackOp, code.instruction? = some (.stack op) ∧ op.Evaluates values r := by
  cases h with
  | increment x => exact ⟨_, rfl, .unary .increment x⟩
  | decrement x => exact ⟨_, rfl, .unary .decrement x⟩
  | negate x => exact ⟨_, rfl, .unary .negate x⟩
  | abs x => exact ⟨_, rfl, Int.abs_eq_natAbs x ▸ .unary .abs x⟩
  | not x => exact ⟨_, rfl, .unary .not x⟩
  | notZero x => exact ⟨_, rfl, by simpa [UnaryOp.eval, bne, beq_eq_decide] using StackOp.Evaluates.unary .notZero x⟩
  | add x y => exact ⟨_, rfl, .binary .add x y⟩
  | sub x y => exact ⟨_, rfl, .binary .sub x y⟩
  | and x y => exact ⟨_, rfl, by simpa [BinaryOp.eval, bne, beq_eq_decide] using StackOp.Evaluates.binary .and x y⟩
  | or x y => exact ⟨_, rfl, by simpa [BinaryOp.eval, bne, beq_eq_decide] using StackOp.Evaluates.binary .or x y⟩
  | equal x y => exact ⟨_, rfl, .binary .equal x y⟩
  | notEqual x y =>
    exact ⟨_, rfl, by simpa [BinaryOp.eval, bne, beq_eq_decide] using StackOp.Evaluates.binary .notEqual x y⟩
  | less x y => exact ⟨_, rfl, .binary .less x y⟩
  | greater x y => exact ⟨_, rfl, .binary .greater x y⟩
  | lessOrEqual x y => exact ⟨_, rfl, .binary .lessOrEqual x y⟩
  | greaterOrEqual x y => exact ⟨_, rfl, .binary .greaterOrEqual x y⟩
  | min x y => exact ⟨_, rfl, .binary .min x y⟩
  | max x y => exact ⟨_, rfl, .binary .max x y⟩
  | within x low high => exact ⟨_, rfl, by simpa using StackOp.Evaluates.within x low high⟩

/-! ## Operands and results -/

theorem natAbs_truth_le (b : Bool) : (truth b).natAbs ≤ 1 := by
  cases b <;> decide

theorem UnaryOp.natAbs_eval_le (op : UnaryOp) {x : Int} (hx : x.natAbs < 2 ^ 31) :
    (op.eval x).natAbs ≤ 2 ^ 32 - 2 := by
  cases op with
  | increment | decrement | negate | abs =>
    simp only [eval]
    omega
  | not | notZero => exact Nat.le_trans (natAbs_truth_le _) (by decide)

theorem BinaryOp.natAbs_eval_le (op : BinaryOp) {x y : Int} (hx : x.natAbs < 2 ^ 31) (hy : y.natAbs < 2 ^ 31) :
    (op.eval x y).natAbs ≤ 2 ^ 32 - 2 := by
  cases op with
  | add | sub =>
    simp only [eval]
    omega
  | min | max =>
    simp only [eval]
    split <;> omega
  | and | or | equal | notEqual | less | greater | lessOrEqual | greaterOrEqual =>
    exact Nat.le_trans (natAbs_truth_le _) (by decide)

/-- the operands are read as these numbers -/
abbrev Operands (strict : Bool) : List Bytes → List Int → Prop :=
  List.Forall₂ fun item x => Number.read item operandLimit strict = .ok x

theorem Operands.exists_of_mem {strict : Bool} {items : List Bytes} {values : List Int}
    (h : Operands strict items values) : ∀ item ∈ items, ∃ x, Number.read item operandLimit strict = .ok x := by
  induction h with
  | nil => nofun
  | cons hx _ ih => exact List.forall_mem_cons.2 ⟨⟨_, hx⟩, ih⟩

namespace StackOp.Evaluates

variable {op : StackOp} {values : List Int} {r : Int} {strict : Bool} {items : List Bytes}

theorem length_eq (h : op.Evaluates values r) : values.length = op.depth := by
  cases h <;> rfl

theorem length_pos (h : op.Evaluates values r) : 0 < values.length := by
  cases h <;> exact Nat.succ_pos _

/-- operands that are read are replaced by the number -/
theorem apply_eq_ok (h : op.Evaluates values r) (hread : Operands strict items values) (rest : Stack) :
    ∃ action, op.apply strict (items.reverse ++ rest) = .ok (Number.encode r :: rest, action) := by
  cases h with
  | unary op x =>
    obtain _ | ⟨hx, ⟨⟩⟩ := hread
    show ∃ action, apply strict (.unary op) (_ :: rest) = _
    simp only [apply, operand, hx]
    exact ⟨_, rfl⟩
  | binary op x y =>
    obtain _ | ⟨hx, _ | ⟨hy, ⟨⟩⟩⟩ := hread
    show ∃ action, apply strict (.binary op) (_ :: _ :: rest) = _
    simp only [apply, operand, hx, hy]
    exact ⟨_, rfl⟩
  | within x low high =>
    obtain _ | ⟨hx, _ | ⟨hlow, _ | ⟨hhigh, ⟨⟩⟩⟩⟩ := hread
    show ∃ action, apply strict .within (_ :: _ :: _ :: rest) = _
    simp only [apply, operand, hx, hlow, hhigh]
    exact ⟨_, rfl⟩

theorem fails_apply (h : op.Evaluates values r) (hlen : items.length = values.length) (rest : Stack) :
    Fails [.numericOverflow] (op.apply strict (items.reverse ++ rest)) := by
  have hread : ∀ item, Fails [.numericOverflow] (operand strict item) :=
    fun item => Number.overflows_read item operandLimit strict
  cases h with
  | unary op x =>
    match items, hlen with
    | [a], _ => exact .bind (hread a) fun x => .ok _
  | binary op x y =>
    match items, hlen with
    | [a, b], _ => exact .bind (hread a) fun x => .bind (hread b) fun y => .ok _
  | within x low high =>
    match items, hlen with
    | [a, b, c], _ => exact .bind (hread a) fun x => .bind (hread b) fun low => .bind (hread c) fun high => .ok _

theorem operands_of_apply (h : op.Evaluates values r) (hlen : items.length = values.length) {rest : Stack}
    {result : Stack × Action} (happly : op.apply strict (items.reverse ++ rest) = .ok result) :
    ∃ values, Operands strict items values := by
  cases h with
  | unary op x =>
    match items, hlen with
    | [a], _ =>
      obtain ⟨x, hx, -⟩ := exists_of_bind_eq_ok happly
      exact ⟨[x], .cons hx .nil⟩
  | binary op x y =>
    match items, hlen with
    | [a, b], _ =>
      obtain ⟨x, hx, happly⟩ := exists_of_bind_eq_ok happly
      obtain ⟨y, hy, -⟩ := exists_of_bind_eq_ok happly
      exact ⟨[x, y], .cons hx (.cons hy .nil)⟩
  | within x low high =>
    match items, hlen with
    | [a, b, c], _ =>
      obtain ⟨x, hx, happly⟩ := exists_of_bind_eq_ok happly
      obtain ⟨low, hlow, happly⟩ := exists_of_bind_eq_ok happly
      obtain ⟨high, hhigh, -⟩ := exists_of_bind_eq_ok happly
      exact ⟨[x, low, high], .cons hx (.cons hlow (.cons hhigh .nil))⟩

/-- what comes of small numbers is at most twice as large -/
theorem natAbs_le (h : op.Evaluates values r) (hsmall : ∀ x ∈ values, x.natAbs < 2 ^ 31) : r.natAbs ≤ 2 ^ 32 - 2 := by
  cases h with
  | unary op x => exact op.natAbs_eval_le (hsmall x (by simp))
  | binary op x y => exact op.natAbs_eval_le (hsmall x (by simp)) (hsmall y (by simp))
  | within x low high => exact Nat.le_trans (natAbs_truth_le _) (by decide)

/-- in words, nothing overflows, neither where the operands are read nor where the number is computed -/
theorem holds_word? (h : op.Evaluates values r) (hread : Operands strict items values) :
    Word.Holds (items.mapM Number.word? >>= op.word?) r := by
  -- an operand in a word is small
  have hword : ∀ {item x}, Number.read item operandLimit strict = .ok x →
      ∃ word, Number.word? item = some word ∧ word.toInt = x ∧ word.toInt.natAbs < 2 ^ 31 := by
    intro item x hx
    obtain ⟨hlen, rfl⟩ := Number.of_read_eq_ok hx
    obtain ⟨word, hword, hvalue⟩ := Number.holds_word? (Nat.lt_of_le_of_lt hlen (by decide))
    exact ⟨word, hword, hvalue, hvalue ▸ Number.natAbs_lt_of_length_le (k := 3) hlen⟩
  cases h with
  | unary op x =>
    obtain _ | ⟨hx, ⟨⟩⟩ := hread
    obtain ⟨a, ha, rfl, hsmall⟩ := hword hx
    simp only [List.mapM_cons, List.mapM_nil, ha]
    exact op.holds_word? hsmall
  | binary op x y =>
    obtain _ | ⟨hx, _ | ⟨hy, ⟨⟩⟩⟩ := hread
    obtain ⟨a, ha, rfl, hsmall⟩ := hword hx
    obtain ⟨b, hb, rfl, hsmall'⟩ := hword hy
    simp only [List.mapM_cons, List.mapM_nil, ha, hb]
    exact op.holds_word? hsmall hsmall'
  | within x low high =>
    obtain _ | ⟨hx, _ | ⟨hlow, _ | ⟨hhigh, ⟨⟩⟩⟩⟩ := hread
    obtain ⟨a, ha, rfl, -⟩ := hword hx
    obtain ⟨b, hb, rfl, -⟩ := hword hlow
    obtain ⟨c, hc, rfl, -⟩ := hword hhigh
    simp only [List.mapM_cons, List.mapM_nil, ha, hb, hc, ← Word.sle_eq, ← Word.slt_eq]
    exact Word.holds_ofTruth _

end StackOp.Evaluates

/-! ## The opcodes -/

/-- what is written for a number is read again as an operand if and only if the number is small enough -/
theorem Number.exists_read_encode_iff (n : Int) (strict : Bool) :
    (∃ m, read (encode n) operandLimit strict = .ok m) ↔ n.natAbs < 2 ^ 31 := by
  constructor
  · rintro ⟨m, hm⟩
    obtain ⟨hlen, -⟩ := of_read_eq_ok hm
    have hlt := natAbs_lt_of_length_le (k := 3) hlen
    rwa [decode_encode] at hlt
  · intro hn
    exact ⟨n, read_encode hn strict⟩

/-- **The numeric opcodes compute with numbers.** Operands that are read are replaced by what is written for the number
that the opcode makes of their values, and no word of 64 bits overflows on the way; it is read as an operand again if
and only if it has less than 32 bits. If an operand is refused, the opcode fails for that, and the state stays. -/
theorem numeric_opcodes_compute (ctx : Context) (s : State) (code : Opcode) (items : List Bytes) (rest : Stack)
    (r : Int) (hcode : code.Computes (items.map Number.signedMagnitude) r) (hx : s.executing)
    (hsize : s.items ≤ stackLimit) (hmain : s.main = items.reverse ++ rest) :
    ((∀ item ∈ items, ∃ x, Number.read item operandLimit ctx.strict = .ok x) →
      (∃ action, execute ctx (.code code) s = ({ s with main := Number.encode r :: rest }, .ok action)) ∧
      (∃ op, code.instruction? = some (.stack op) ∧ Word.Holds (items.mapM Number.word? >>= op.word?) r) ∧
      r.natAbs ≤ 2 ^ 32 - 2 ∧ (Number.encode r).length ≤ 5 ∧ Number.isMinimal (Number.encode r) ∧
      ∀ strict, (∃ x, Number.read (Number.encode r) operandLimit strict = .ok x) ↔ r.natAbs < 2 ^ 31) ∧
    ((∃ item ∈ items, ∀ x, Number.read item operandLimit ctx.strict ≠ .ok x) →
      ∃ failure, failure.kind = .numericOverflow ∧ execute ctx (.code code) s = (s, .error failure)) := by
  obtain ⟨op, hi, hop⟩ := hcode.evaluates
  have hvalues : (items.map Number.signedMagnitude).length = items.length := List.length_map _
  have hmainlen : s.main.length = items.length + rest.length := by
    rw [hmain, List.length_append, List.length_reverse]
  have hpos : 0 < items.length := hvalues ▸ hop.length_pos
  have hdepth : op.depth ≤ s.main.length := by
    rw [← hop.length_eq]
    omega
  constructor
  · intro hreads
    have hread : Operands ctx.strict items (items.map Number.signedMagnitude) := by
      refine List.forall₂_map_right_iff.2 (List.forall₂_same.2 fun item hmem => ?_)
      obtain ⟨x, hx⟩ := hreads item hmem
      rwa [← Number.decode_eq_signedMagnitude, (Number.of_read_eq_ok hx).2]
    have hsmall : ∀ x ∈ items.map Number.signedMagnitude, x.natAbs < 2 ^ 31 := by
      intro x hmem
      obtain ⟨item, hitem, rfl⟩ := List.mem_map.1 hmem
      obtain ⟨x, hx⟩ := hreads item hitem
      rw [← Number.decode_eq_signedMagnitude]
      exact Number.natAbs_lt_of_length_le (k := 3) (Number.of_read_eq_ok hx).1
    have hle : r.natAbs ≤ 2 ^ 32 - 2 := hop.natAbs_le hsmall
    have hroom : (Number.encode r :: rest).length + s.alt.length ≤ stackLimit := by
      rw [State.items] at hsize
      rw [List.length_cons]
      omega
    obtain ⟨action, happly⟩ := hop.apply_eq_ok hread rest
    rw [← hmain] at happly
    exact ⟨⟨action, execute_stack_eq_ok hi hx hdepth happly hroom⟩, ⟨op, hi, hop.holds_word? hread⟩, hle,
      Number.length_encode_le (k := 4) (by omega), Number.isMinimal_encode r, Number.exists_read_encode_iff r⟩
  · rintro ⟨item, hmem, hrefused⟩
    cases happly : op.apply ctx.strict s.main with
    | error failure =>
      have hfails : Fails [.numericOverflow] (op.apply ctx.strict s.main) := hmain ▸ hop.fails_apply hvalues.symm rest
      exact ⟨.within code.name failure, List.mem_singleton.1 (hfails failure happly),
        execute_stack_eq_error hi hx hdepth happly⟩
    | ok result =>
      rw [hmain] at happly
      obtain ⟨values, hread⟩ := hop.operands_of_apply hvalues.symm happly
      obtain ⟨x, hx⟩ := hread.exists_of_mem item hmem
      exact absurd hx (hrefused x)

/-- the least operand less the greatest, in minimal form: the result has the least value that there can be, and needs a
fifth byte -/
theorem numeric_opcodes_compute_least :
    let s : State := ⟨[[0xff, 0xff, 0xff, 0x7f], [0xff, 0xff, 0xff, 0xff], [7]], [], .none, 0, 0⟩
    ∃ action, execute ⟨⟨[]⟩, none, true⟩ (.code ⟨0x94⟩) s =
      ({ s with main := [[0xfe, 0xff, 0xff, 0xff, 0x80], [7]] }, .ok action) := by
  intro s
  have hcode : Opcode.Computes ⟨0x94⟩ [-2147483647, 2147483647] (-4294967294) := .sub (-2147483647) 2147483647
  have hwritten : Number.encode (-4294967294) = [0xfe, 0xff, 0xff, 0xff, 0x80] := by decide +kernel
  obtain ⟨hok, -⟩ := numeric_opcodes_compute ⟨⟨[]⟩, none, true⟩ s ⟨0x94⟩
    [[0xff, 0xff, 0xff, 0xff], [0xff, 0xff, 0xff, 0x7f]] [[7]] _ hcode rfl (by decide) rfl
  obtain ⟨⟨action, he⟩, -⟩ := hok (List.forall_mem_cons.2 ⟨⟨_, rfl⟩, List.forall_mem_singleton.2 ⟨_, rfl⟩⟩)
  exact ⟨action, hwritten ▸ he⟩

end BitcoinScript
