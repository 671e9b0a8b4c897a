/-
Instructions, which are what opcodes mean. They are grouped by what they work on: most only rearrange or compute on the
main stack, a few move an item between the two stacks, open and close conditional blocks, or check signatures.

`Opcode.instruction?` gives the meaning of an opcode. `Instruction.depth` is the number of items that must be on the
main stack before the instruction is carried out.
-/
import BitcoinScript.Hash.Digest
import BitcoinScript.Opcode

namespace BitcoinScript

/-- a fixed rearrangement of the items on top of the stack -/
inductive Shuffle where
  | drop2
  | dup2
  | dup3
  | over2
  | rot2
  | swap2
  | drop
  | dup
  | nip
  | over
  | rot
  | swap
  | tuck
  deriving DecidableEq

/-- an operation on one number -/
inductive UnaryOp where
  | increment
  | decrement
  | negate
  | abs
  | not
  | notZero
  deriving DecidableEq

/-- an operation on two numbers -/
inductive BinaryOp where
  | add
  | sub
  | and
  | or
  | equal
  | notEqual
  | less
  | greater
  | lessOrEqual
  | greaterOrEqual
  | min
  | max
  deriving DecidableEq

/-- an instruction that works on the main stack alone -/
inductive StackOp where
  | nop
  /-- a lock time check, which has no effect; `op` is the opcode it goes by -/
  | ignored (op : Opcode)
  | pushNumber (n : Int)
  | verify
  | unspendable
  | shuffle (kind : Shuffle)
  | dupIfTrue
  | pushDepth
  /-- copies the item at a depth given on the stack to the top, or moves it there -/
  | fetch (keep : Bool)
  | pushSize
  | equal (verify : Bool)
  | unary (op : UnaryOp)
  | binary (op : BinaryOp)
  | equalNumbersVerify
  | within
  | hash (digest : Hash.Digest)
  deriving DecidableEq

/-- an instruction that opens, turns or closes a conditional block -/
inductive FlowOp where
  | openBlock (negated : Bool)
  | turnBlock
  | closeBlock
  deriving DecidableEq

/-- an instruction that checks signatures; with `verify`, it fails instead of pushing a false item -/
inductive SignatureOp where
  | one (verify : Bool)
  | many (verify : Bool)
  deriving DecidableEq

/-- the meaning of an opcode -/
inductive Instruction where
  | stack (op : StackOp)
  | flow (op : FlowOp)
  | toAlt
  | fromAlt
  | codeSeparator
  | signature (op : SignatureOp)
  deriving DecidableEq

/-! ## What an instruction needs -/

/-- how many items a rearrangement looks at -/
def Shuffle.depth : Shuffle → Nat
  | .drop | .dup => 1
  | .drop2 | .dup2 | .nip | .over | .swap | .tuck => 2
  | .dup3 | .rot => 3
  | .over2 | .swap2 => 4
  | .rot2 => 6

/-- how many items an instruction needs on the main stack -/
def StackOp.depth : StackOp → Nat
  | .nop | .ignored _ | .pushNumber _ | .unspendable | .pushDepth => 0
  | .verify | .dupIfTrue | .fetch _ | .pushSize | .unary _ | .hash _ => 1
  | .equal _ | .binary _ | .equalNumbersVerify => 2
  | .within => 3
  | .shuffle kind => kind.depth

/-- how many items an instruction needs on the main stack -/
def FlowOp.depth : FlowOp → Nat
  | .openBlock _ => 1
  | .turnBlock | .closeBlock => 0

/-- how many items an instruction needs on the main stack to begin with -/
def SignatureOp.depth : SignatureOp → Nat
  | .one _ => 2
  | .many _ => 1

namespace Instruction

/-- how many items must be on the main stack before the instruction is carried out -/
def depth : Instruction → Nat
  | .stack op => op.depth
  | .flow op => op.depth
  | .toAlt => 1
  | .fromAlt | .codeSeparator => 0
  | .signature op => op.depth

/-- whether the instruction is looked at inside a block that is not taken -/
def isFlow : Instruction → Bool
  | .flow _ => true
  | _ => false

/-- whether the instruction needs a spending transaction -/
def needsTransaction : Instruction → Bool
  | .signature _ => true
  | _ => false

end Instruction

/-! ## The instruction of an opcode -/

/-- the instructions with the bytes that stand for them -/
def instructionTable : List (UInt8 × Instruction) :=
  [(0x4f, .stack (.pushNumber (-1))), (0x51, .stack (.pushNumber 1)), (0x52, .stack (.pushNumber 2)),
    (0x53, .stack (.pushNumber 3)), (0x54, .stack (.pushNumber 4)), (0x55, .stack (.pushNumber 5)),
    (0x56, .stack (.pushNumber 6)), (0x57, .stack (.pushNumber 7)), (0x58, .stack (.pushNumber 8)),
    (0x59, .stack (.pushNumber 9)), (0x5a, .stack (.pushNumber 10)), (0x5b, .stack (.pushNumber 11)),
    (0x5c, .stack (.pushNumber 12)), (0x5d, .stack (.pushNumber 13)), (0x5e, .stack (.pushNumber 14)),
    (0x5f, .stack (.pushNumber 15)), (0x60, .stack (.pushNumber 16)),
    (0x61, .stack .nop), (0x63, .flow (.openBlock false)), (0x64, .flow (.openBlock true)), (0x67, .flow .turnBlock),
    (0x68, .flow .closeBlock), (0x69, .stack .verify), (0x6a, .stack .unspendable), (0x6b, .toAlt), (0x6c, .fromAlt),
    (0x6d, .stack (.shuffle .drop2)), (0x6e, .stack (.shuffle .dup2)), (0x6f, .stack (.shuffle .dup3)),
    (0x70, .stack (.shuffle .over2)), (0x71, .stack (.shuffle .rot2)), (0x72, .stack (.shuffle .swap2)),
    (0x73, .stack .dupIfTrue), (0x74, .stack .pushDepth), (0x75, .stack (.shuffle .drop)),
    (0x76, .stack (.shuffle .dup)), (0x77, .stack (.shuffle .nip)), (0x78, .stack (.shuffle .over)),
    (0x79, .stack (.fetch true)), (0x7a, .stack (.fetch false)), (0x7b, .stack (.shuffle .rot)),
    (0x7c, .stack (.shuffle .swap)), (0x7d, .stack (.shuffle .tuck)), (0x82, .stack .pushSize),
    (0x87, .stack (.equal false)), (0x88, .stack (.equal true)),
    (0x8b, .stack (.unary .increment)), (0x8c, .stack (.unary .decrement)), (0x8f, .stack (.unary .negate)),
    (0x90, .stack (.unary .abs)), (0x91, .stack (.unary .not)), (0x92, .stack (.unary .notZero)),
    (0x93, .stack (.binary .add)), (0x94, .stack (.binary .sub)), (0x9a, .stack (.binary .and)),
    (0x9b, .stack (.binary .or)), (0x9c, .stack (.binary .equal)), (0x9d, .stack .equalNumbersVerify),
    (0x9e, .stack (.binary .notEqual)), (0x9f, .stack (.binary .less)), (0xa0, .stack (.binary .greater)),
    (0xa1, .stack (.binary .lessOrEqual)), (0xa2, .stack (.binary .greaterOrEqual)),
    (0xa3, .stack (.binary .min)), (0xa4, .stack (.binary .max)), (0xa5, .stack .within),
    (0xa6, .stack (.hash .ripemd160)), (0xa7, .stack (.hash .sha1)), (0xa8, .stack (.hash .sha256)),
    (0xa9, .stack (.hash .hash160)), (0xaa, .stack (.hash .hash256)), (0xab, .codeSeparator),
    (0xac, .signature (.one false)), (0xad, .signature (.one true)), (0xae, .signature (.many false)),
    (0xaf, .signature (.many true)),
    (0xb0, .stack .nop), (0xb1, .stack (.ignored ⟨0xb1⟩)), (0xb2, .stack (.ignored ⟨0xb2⟩)), (0xb3, .stack .nop),
    (0xb4, .stack .nop), (0xb5, .stack .nop), (0xb6, .stack .nop), (0xb7, .stack .nop), (0xb8, .stack .nop),
    (0xb9, .stack .nop)]

/-- the meaning of an opcode, if it has one -/
def Opcode.instruction? (op : Opcode) : Option Instruction :=
  instructionTable.lookup op.byte

theorem Opcode.mem_of_instruction? {op : Opcode} {instruction : Instruction} (h : op.instruction? = some instruction) :
    (op.byte, instruction) ∈ instructionTable := by
  obtain ⟨before, after, hsplit, -⟩ := List.lookup_eq_some_iff.1 h
  rw [hsplit]
  exact List.mem_append_right before List.mem_cons_self

/-- an instruction that the table gives for one byte alone is that of one opcode -/
theorem Opcode.eq_of_instruction? {op code : Opcode} {instruction : Instruction}
    (h : op.instruction? = some instruction)
    (hcode : ∀ entry ∈ instructionTable, entry.2 = instruction → entry.1 = code.byte) : op = code :=
  congrArg Opcode.mk (hcode _ (mem_of_instruction? h) rfl)

theorem Opcode.isDisabled_of_instruction? {op : Opcode} {instruction : Instruction}
    (h : op.instruction? = some instruction) : op.isDisabled = false := by
  have htable : ∀ entry ∈ instructionTable, (Opcode.mk entry.1).isDisabled = false := by decide
  exact htable _ (mem_of_instruction? h)

end BitcoinScript
