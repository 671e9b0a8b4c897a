/-
Numbers in words of 64 bits. An operand is read into a word, and the instructions compute with words; an operation that
overflows ends the computation. No operation does, since operands are much smaller than words, so what comes out holds
the number that there would be without words.

Results:
- `Number.holds_word?`: a short byte string is read into a word that holds its value.
- `UnaryOp.holds_word?`, `BinaryOp.holds_word?`: an operation on operands ends in a word that holds its result.
-/
import Mathlib.Algebra.Group.Int.Defs
import BitcoinScript.Machine.StackOp
import BitcoinScript.Proofs.Number.Codec

namespace BitcoinScript

/-- a word of 64 bits with a sign -/
abbrev Word : Type := BitVec 64

namespace Word

/-- the sum, unless it overflows -/
def add? (x y : Word) : Option Word :=
  if x.saddOverflow y then none else some (x + y)

/-- the difference, unless it overflows -/
def sub? (x y : Word) : Option Word :=
  if x.ssubOverflow y then none else some (x - y)

/-- the negative, unless it overflows -/
def neg? (x : Word) : Option Word :=
  if x.negOverflow then none else some (-x)

/-- the word moved up by `n` bits, which must be fewer than it has -/
def shift? (x : Word) (n : Nat) : Option Word :=
  if n < 64 then some (x <<< n) else none

/-- one for true, zero for false -/
def ofTruth (b : Bool) : Word :=
  if b then 1 else 0

/-- the computation ends, in a word that holds the number -/
def Holds (word? : Option Word) (n : Int) : Prop :=
  ∃ word : Word, word? = some word ∧ word.toInt = n

variable {x y : Word}

theorem holds_add? (hlow : -2 ^ 63 ≤ x.toInt + y.toInt) (hhigh : x.toInt + y.toInt < 2 ^ 63) :
    Holds (x.add? y) (x.toInt + y.toInt) := by
  have hno : ¬ x.saddOverflow y := by
    simp only [BitVec.saddOverflow, Bool.or_eq_true, decide_eq_true_eq]
    omega
  exact ⟨x + y, if_neg hno, BitVec.toInt_add_of_not_saddOverflow hno⟩

theorem holds_sub? (hlow : -2 ^ 63 ≤ x.toInt - y.toInt) (hhigh : x.toInt - y.toInt < 2 ^ 63) :
    Holds (x.sub? y) (x.toInt - y.toInt) := by
  have hno : ¬ x.ssubOverflow y := by
    simp only [BitVec.ssubOverflow, Bool.or_eq_true, decide_eq_true_eq]
    omega
  exact ⟨x - y, if_neg hno, BitVec.toInt_sub_of_not_ssubOverflow hno⟩

theorem holds_neg? (hlow : -2 ^ 63 < x.toInt) : Holds x.neg? (-x.toInt) := by
  have hno : ¬ x.negOverflow := by
    simp only [BitVec.negOverflow, beq_iff_eq]
    omega
  exact ⟨-x, if_neg hno, BitVec.toInt_neg_of_not_negOverflow hno⟩

theorem holds_ofTruth (b : Bool) : Holds (some (ofTruth b)) (truth b) := by
  cases b <;> exact ⟨_, rfl, rfl⟩

theorem toInt_of_toNat {n : Nat} (h : x.toNat = n) (hn : n < 2 ^ 63) : x.toInt = n := by
  rw [BitVec.toInt_eq_toNat_of_lt (by omega), h]

end Word

/-! ## Reading -/

namespace Number

open Word

/-- puts bytes into a word, each in the `shift`-th bits above those before -/
def gather? (shift : Nat) (word : Word) : Bytes → Option Word
  | [] => some word
  | b :: bs => do
    let placed ← shift? (b.toBitVec.setWidth 64) shift
    gather? (shift + 8) (word ||| placed) bs

/-- reads a number into a word: where the sign bit is set, it is masked out and the rest is negated -/
def word? (bs : Bytes) : Option Word := do
  let gathered ← gather? 0 0 bs
  if isNegative bs then
    let signBit ← shift? 1 (8 * bs.length - 1)
    let mask ← signBit.sub? 1
    (gathered &&& mask).neg?
  else return gathered

theorem toNat_or_shiftLeft {word : Word} {shift : Nat} (b : UInt8) (hword : word.toNat < 2 ^ shift)
    (hshift : shift + 8 < 64) :
    (word ||| (b.toBitVec.setWidth 64 <<< shift)).toNat = word.toNat + 2 ^ shift * b.toNat := by
  have hb : b.toNat < 2 ^ 8 := b.toNat_lt
  have hplaced : b.toNat <<< shift < 2 ^ 64 := by
    rw [Nat.shiftLeft_eq]
    calc b.toNat * 2 ^ shift
      _ < 2 ^ 8 * 2 ^ shift := Nat.mul_lt_mul_of_pos_right hb (Nat.two_pow_pos shift)
      _ = 2 ^ (8 + shift) := (Nat.pow_add 2 8 shift).symm
      _ ≤ 2 ^ 64 := Nat.pow_le_pow_right (by decide) (by omega)
  have hwide : (b.toBitVec.setWidth 64).toNat = b.toNat := by
    rw [BitVec.toNat_setWidth]
    exact Nat.mod_eq_of_lt (Nat.lt_trans hb (by decide))
  rw [BitVec.toNat_or, BitVec.toNat_shiftLeft, hwide, Nat.mod_eq_of_lt hplaced, Nat.or_comm,
    ← Nat.shiftLeft_add_eq_or_of_lt hword, Nat.shiftLeft_eq, Nat.mul_comm, Nat.add_comm]

/-- bytes gathered above the bits of a word add their number to it, as long as there is room. The induction is on the
bytes; what carries it is that the bits from `shift` on are free -/
theorem gather?_eq_some {bs : Bytes} {shift : Nat} {word : Word} (hword : word.toNat < 2 ^ shift)
    (hroom : shift + 8 * bs.length < 64) :
    ∃ gathered, gather? shift word bs = some gathered ∧
      gathered.toNat = word.toNat + 2 ^ shift * Bytes.toNatLE bs := by
  induction bs generalizing shift word with
  | nil => exact ⟨word, rfl, rfl⟩
  | cons b bs ih =>
    rw [List.length_cons] at hroom
    have hsum := toNat_or_shiftLeft b hword (by omega)
    have hb : b.toNat < 2 ^ 8 := b.toNat_lt
    have hnext : (word ||| (b.toBitVec.setWidth 64 <<< shift)).toNat < 2 ^ (shift + 8) := by
      rw [hsum]
      calc word.toNat + 2 ^ shift * b.toNat
        _ < 2 ^ shift + 2 ^ shift * b.toNat := Nat.add_lt_add_right hword _
        _ = 2 ^ shift * (b.toNat + 1) := by rw [Nat.mul_succ, Nat.add_comm]
        _ ≤ 2 ^ shift * 2 ^ 8 := Nat.mul_le_mul_left _ hb
        _ = 2 ^ (shift + 8) := (Nat.pow_add 2 shift 8).symm
    obtain ⟨gathered, hg, hvalue⟩ := ih hnext (by omega)
    refine ⟨gathered, ?_, ?_⟩
    · have hplaced : shift? (b.toBitVec.setWidth 64) shift = some (b.toBitVec.setWidth 64 <<< shift) :=
        if_pos (by omega)
      rw [gather?, hplaced]
      exact hg
    · rw [hvalue, hsum, Bytes.toNatLE, Nat.pow_add, Nat.add_assoc, Nat.mul_assoc, ← Nat.mul_add]

/-- the bits below the `k`-th are masked by the word with that bit alone, less one -/
theorem exists_mask {k : Nat} (hk : k < 63) :
    ∃ signBit mask : Word, shift? 1 k = some signBit ∧ signBit.sub? 1 = some mask ∧ mask.toNat = 2 ^ k - 1 := by
  have hpow : 2 ^ k < 2 ^ 63 := Nat.pow_lt_pow_right (by decide) hk
  have hpos : 0 < 2 ^ k := Nat.two_pow_pos k
  obtain ⟨signBit, hsign⟩ : ∃ signBit : Word, signBit = (1 : Word) <<< k := ⟨_, rfl⟩
  have hbit : signBit.toNat = 2 ^ k := by
    rw [hsign, BitVec.toNat_shiftLeft, Nat.shiftLeft_eq]
    exact (Nat.mod_eq_of_lt (by simpa using Nat.lt_trans hpow (by decide))).trans (Nat.one_mul _)
  have hint : signBit.toInt = (2 ^ k : Nat) := toInt_of_toNat hbit hpow
  have hone : (1 : Word).toInt = 1 := rfl
  obtain ⟨mask, hmask, hvalue⟩ : Holds (signBit.sub? 1) _ := holds_sub? (by omega) (by omega)
  refine ⟨signBit, mask, hsign ▸ if_pos (by omega), hmask, ?_⟩
  rw [BitVec.toInt_eq_toNat_cond] at hvalue
  split at hvalue <;> omega

/-- a byte string of less than a word is read into a word that holds its value -/
theorem holds_word? {bs : Bytes} (h : bs.length < 8) : Holds (word? bs) (decode bs) := by
  have hstart : (0 : Word).toNat < 2 ^ 0 := by decide
  obtain ⟨gathered, hg, hvalue⟩ := gather?_eq_some hstart (show 0 + 8 * bs.length < 64 by omega)
  have hn : gathered.toNat = Bytes.toNatLE bs := by
    rw [hvalue]
    simp
  rcases bs with _ | ⟨b, bs⟩
  · exact ⟨gathered, hg, toInt_of_toNat hn (by decide)⟩
  · obtain ⟨hsplit, hlt⟩ := toNatLE_cons b bs
    have hsmall : 2 ^ (8 * (bs.length + 1) - 1) < 2 ^ 63 := by
      rw [List.length_cons] at h
      exact Nat.pow_lt_pow_right (by decide) (by omega)
    rw [← signBit_eq] at hsplit hlt
    cases hneg : isNegative (b :: bs) with
    | false =>
      rw [hneg] at hsplit
      refine ⟨gathered, ?_, ?_⟩
      · rw [word?, hg, hneg]
        rfl
      · rw [decode, hneg]
        exact toInt_of_toNat (by simpa using hn.trans hsplit) (Nat.lt_trans hlt hsmall)
    | true =>
      rw [hneg, if_pos rfl] at hsplit
      obtain ⟨signBit, mask, hbit, hmask, hvalue⟩ := exists_mask (k := 8 * (bs.length + 1) - 1) (by simp at h; omega)
      have hrest : (gathered &&& mask).toNat = magnitude (b :: bs) := by
        rw [BitVec.toNat_and, hvalue, Nat.and_two_pow_sub_one_eq_mod, hn, hsplit, Nat.add_mod_right,
          Nat.mod_eq_of_lt hlt]
      have hint : (gathered &&& mask).toInt = magnitude (b :: bs) := toInt_of_toNat hrest (Nat.lt_trans hlt hsmall)
      obtain ⟨word, hword, hresult⟩ : Holds (Word.neg? (gathered &&& mask)) _ := holds_neg? (by omega)
      refine ⟨word, ?_, ?_⟩
      · rw [word?, hg, hneg]
        show (shift? 1 _ >>= fun signBit => signBit.sub? 1 >>= _) = _
        rw [List.length_cons, hbit]
        show (signBit.sub? 1 >>= _) = _
        rw [hmask]
        exact hword
      · rw [hresult, hint, decode, hneg, if_pos rfl]

end Number

/-! ## Computing -/

open Word

/-- an operation on one number, in words -/
def UnaryOp.word? : UnaryOp → Word → Option Word
  | .increment, x => x.add? 1
  | .decrement, x => x.sub? 1
  | .negate, x => x.neg?
  | .abs, x => if x.slt 0 then x.neg? else some x
  | .not, x => some (ofTruth (x == 0))
  | .notZero, x => some (ofTruth (x != 0))

/-- an operation on two numbers, the deeper one first, in words -/
def BinaryOp.word? : BinaryOp → Word → Word → Option Word
  | .add, x, y => x.add? y
  | .sub, x, y => x.sub? y
  | .and, x, y => some (ofTruth (x != 0 && y != 0))
  | .or, x, y => some (ofTruth (x != 0 || y != 0))
  | .equal, x, y => some (ofTruth (x == y))
  | .notEqual, x, y => some (ofTruth (x != y))
  | .less, x, y => some (ofTruth (x.slt y))
  | .greater, x, y => some (ofTruth (y.slt x))
  | .lessOrEqual, x, y => some (ofTruth (x.sle y))
  | .greaterOrEqual, x, y => some (ofTruth (y.sle x))
  | .min, x, y => some (if x.sle y then x else y)
  | .max, x, y => some (if x.sle y then y else x)

/-- a numeric instruction on its operands, the deepest first, in words -/
def StackOp.word? : StackOp → List Word → Option Word
  | .unary op, [x] => op.word? x
  | .binary op, [x, y] => op.word? x y
  | .within, [x, low, high] => some (ofTruth (low.sle x && x.slt high))
  | _, _ => none

section

variable {x y : Word}

theorem Word.beq_eq (x y : Word) : (x == y) = (x.toInt == y.toInt) := by
  rw [Bool.eq_iff_iff, beq_iff_eq, beq_iff_eq, BitVec.toInt_inj]

theorem Word.bne_zero (x : Word) : (x != 0) = (x.toInt != 0) := by
  rw [bne, beq_eq]
  rfl

theorem Word.slt_eq (x y : Word) : x.slt y = decide (x.toInt < y.toInt) := by
  rw [Bool.eq_iff_iff, BitVec.slt_iff_toInt_lt, decide_eq_true_iff]

theorem Word.sle_eq (x y : Word) : x.sle y = decide (x.toInt ≤ y.toInt) := by
  rw [Bool.eq_iff_iff, BitVec.sle_iff_toInt_le, decide_eq_true_iff]

theorem UnaryOp.holds_word? (op : UnaryOp) (hx : x.toInt.natAbs < 2 ^ 31) :
    Holds (op.word? x) (op.eval x.toInt) := by
  have hone : (1 : Word).toInt = 1 := rfl
  have hzero : (0 : Word).toInt = 0 := rfl
  cases op with
  | increment => exact holds_add? (y := 1) (by omega) (by omega)
  | decrement => exact holds_sub? (y := 1) (by omega) (by omega)
  | negate => exact holds_neg? (by omega)
  | abs =>
    simp only [word?, eval, slt_eq, hzero, decide_eq_true_eq]
    split
    · rw [Int.ofNat_natAbs_of_nonpos (by omega)]
      exact holds_neg? (by omega)
    · exact ⟨x, rfl, by omega⟩
  | not =>
    rw [word?, eval, beq_eq]
    exact holds_ofTruth _
  | notZero =>
    rw [word?, eval, bne_zero]
    exact holds_ofTruth _

/-- an operation on two small numbers does not overflow -/
theorem BinaryOp.holds_word? (op : BinaryOp) (hx : x.toInt.natAbs < 2 ^ 31) (hy : y.toInt.natAbs < 2 ^ 31) :
    Holds (op.word? x y) (op.eval x.toInt y.toInt) := by
  cases op with
  | add => exact holds_add? (by omega) (by omega)
  | sub => exact holds_sub? (by omega) (by omega)
  | and | or =>
    simp only [word?, eval, bne_zero]
    exact holds_ofTruth _
  | equal | notEqual =>
    simp only [word?, eval, bne, beq_eq]
    exact holds_ofTruth _
  | less | greater =>
    simp only [word?, eval, slt_eq]
    exact holds_ofTruth _
  | lessOrEqual | greaterOrEqual =>
    simp only [word?, eval, sle_eq]
    exact holds_ofTruth _
  | min | max =>
    simp only [word?, eval, sle_eq, decide_eq_true_eq]
    split <;> exact ⟨_, rfl, rfl⟩

end

end BitcoinScript
