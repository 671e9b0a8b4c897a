/-
Opcodes, the bytes that begin the operations of a script, and their names.

A byte up to `4e` announces a push. Every other byte is an operation of its own, known or not; those above `60` count
towards the limit on operations, and some are disabled, which means that they may not even be skipped.
-/

namespace BitcoinScript

/-- an opcode -/
structure Opcode where
  byte : UInt8
  deriving DecidableEq

namespace Opcode

/-- the names of the opcodes from `61` on, without their common first part -/
def operationNames : List String :=
  ["NOP", "VER", "IF", "NOTIF", "VERIF", "VERNOTIF", "ELSE", "ENDIF", "VERIFY", "RETURN", "TOALTSTACK",
    "FROMALTSTACK", "2DROP", "2DUP", "3DUP", "2OVER", "2ROT", "2SWAP", "IFDUP", "DEPTH", "DROP", "DUP", "NIP", "OVER",
    "PICK", "ROLL", "ROT", "SWAP", "TUCK", "CAT", "SUBSTR", "LEFT", "RIGHT", "SIZE", "INVERT", "AND", "OR", "XOR",
    "EQUAL", "EQUALVERIFY", "RESERVED1", "RESERVED2", "1ADD", "1SUB", "2MUL", "2DIV", "NEGATE", "ABS", "NOT",
    "0NOTEQUAL", "ADD", "SUB", "MUL", "DIV", "MOD", "LSHIFT", "RSHIFT", "BOOLAND", "BOOLOR", "NUMEQUAL",
    "NUMEQUALVERIFY", "NUMNOTEQUAL", "LESSTHAN", "GREATERTHAN", "LESSTHANOREQUAL", "GREATERTHANOREQUAL", "MIN", "MAX",
    "WITHIN", "RIPEMD160", "SHA1", "SHA256", "HASH160", "HASH256", "CODESEPARATOR", "CHECKSIG", "CHECKSIGVERIFY",
    "CHECKMULTISIG", "CHECKMULTISIGVERIFY", "NOP1", "CLTV", "CSV", "NOP4", "NOP5", "NOP6", "NOP7", "NOP8", "NOP9",
    "NOP10", "CHECKSIGADD"]

/-- the name of an opcode -/
def name (op : Opcode) : String :=
  let b := op.byte.toNat
  if b ≤ 0x4b then s!"OP_PUSHBYTES_{b}"
  else if b = 0x4c then "OP_PUSHDATA1"
  else if b = 0x4d then "OP_PUSHDATA2"
  else if b = 0x4e then "OP_PUSHDATA4"
  else if b = 0x4f then "OP_PUSHNUM_NEG1"
  else if b = 0x50 then "OP_RESERVED"
  else if b ≤ 0x60 then s!"OP_PUSHNUM_{b - 0x50}"
  else if b = 0xff then "OP_INVALIDOPCODE"
  else
    match operationNames[b - 0x61]? with
    | some operation => "OP_" ++ operation
    | none => s!"OP_RETURN_{b}"

/-- the name of the opcode that an operation begins with, where a push of nothing is called after its value -/
def leadName (op : Opcode) : String :=
  if op.byte = 0 then "OP_0" else op.name

/-- whether the opcode counts towards the limit on operations -/
def isCounted (op : Opcode) : Bool :=
  0x60 < op.byte

/-- the disabled opcodes -/
def disabled : List UInt8 :=
  [0x7e, 0x7f, 0x80, 0x81,              -- CAT SUBSTR LEFT RIGHT
    0x83, 0x84, 0x85, 0x86,             -- INVERT AND OR XOR
    0x8d, 0x8e,                         -- 2MUL 2DIV
    0x95, 0x96, 0x97, 0x98, 0x99,       -- MUL DIV MOD LSHIFT RSHIFT
    0x50, 0x62, 0x65, 0x66, 0x89, 0x8a] -- RESERVED VER VERIF VERNOTIF RESERVED1 RESERVED2

/-- whether the opcode fails wherever it stands, even where it would be skipped -/
def isDisabled (op : Opcode) : Bool :=
  disabled.contains op.byte

end Opcode

end BitcoinScript
