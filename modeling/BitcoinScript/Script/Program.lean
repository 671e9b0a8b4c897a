/-
Decoded scripts. A script of at most 10000 bytes is a list of operations, each with the bytes it was written in and the
place where they begin: pushes of at most 520 bytes, and at most 201 other operations that count. Decoding reports the
leftmost fault, and of one push first that it is cut and then that it is too long.
-/
import BitcoinScript.Failure
import BitcoinScript.Script.Token

namespace BitcoinScript

/-- an operation of a script -/
inductive Operation where
  | push (data : Bytes)
  | code (op : Opcode)
  deriving DecidableEq

/-- the text of an operation -/
def Operation.text : Operation → String
  | .push [] => "OP_0"
  | .push data => "<" ++ Hex.encode data ++ ">"
  | .code op => op.name

/-- whether the operation counts towards the limit -/
def Operation.isCounted : Operation → Bool
  | .push _ => false
  | .code op => op.isCounted

/-- an operation in its place -/
structure Chunk where
  offset : Nat
  raw : Bytes
  operation : Operation
  deriving DecidableEq

/-- the name of the opcode that the operation was written with -/
def Chunk.name (chunk : Chunk) : String :=
  match chunk.raw with
  | [] => ""
  | b :: _ => (Opcode.mk b).leadName

/-- the operation of a token that begins at `offset` -/
def Token.operation (offset : Nat) : Token → Except Failure Operation
  | .single op => .ok (.code op)
  | .push _ _ data => if itemLimit < data.length then .error (.longPush offset data.length) else .ok (.push data)
  | .cutLength _ | .cutData _ => .error (.openPush offset)

/-- the chunks of the tokens from `offset` on, after `counted` operations that count -/
def Chunk.ofTokens : (offset counted : Nat) → List Token → Except Failure (List Chunk)
  | _, _, [] => .ok []
  | offset, counted, token :: tokens => do
    let operation ← token.operation offset
    let counted := if operation.isCounted then counted + 1 else counted
    if operationLimit < counted then .error .tooManyOperations
    else
      let chunks ← ofTokens (offset + token.raw.length) counted tokens
      return ⟨offset, token.raw, operation⟩ :: chunks

/-- a decoded script -/
structure Program where
  chunks : List Chunk
  deriving DecidableEq

namespace Program

/-- decodes a script -/
def decode (script : Bytes) : Except Failure Program :=
  if scriptLimit < script.length then .error (.longScript script.length)
  else (Chunk.ofTokens 0 0 (Token.scan script)).map Program.mk

/-- the number of operations -/
def length (program : Program) : Nat :=
  program.chunks.length

/-- the bytes of the script -/
def bytes (program : Program) : Bytes :=
  program.chunks.flatMap Chunk.raw

/-- the operations -/
def operations (program : Program) : List Operation :=
  program.chunks.map Chunk.operation

/-- where operation `pc` begins; past the last one, the length of the script -/
def offset (program : Program) (pc : Nat) : Nat :=
  match program.chunks[pc]? with
  | some chunk => chunk.offset
  | none => program.bytes.length

/-- the name of the opcode that operation `pc` was written with; past the last one, nothing -/
def name (program : Program) (pc : Nat) : String :=
  match program.chunks[pc]? with
  | some chunk => chunk.name
  | none => ""

/-- the chunks that begin at byte `start` or later -/
def chunksFrom (program : Program) (start : Nat) : List Chunk :=
  program.chunks.dropWhile (·.offset < start)

/-- the indices of the operations that begin at byte `start` or later -/
def indicesFrom (program : Program) (start : Nat) : List Nat :=
  let left := (program.chunksFrom start).length
  List.range' (program.length - left) left

end Program

end BitcoinScript
