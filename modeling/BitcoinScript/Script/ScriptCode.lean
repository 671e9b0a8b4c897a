/-
The script code, which is the part of a script that a signature commits to: what follows the last executed separator,
without any separators and without the pushes of the signatures themselves. Only a push in its shortest form counts as
the push of a signature, and pushes inside the data of other pushes do not.
-/
import BitcoinScript.Script.Program

namespace BitcoinScript

/-- the shortest push of a byte string that does not use the opcodes for small numbers -/
def canonicalPush (data : Bytes) : Bytes :=
  if data.length < 0x4c then UInt8.ofNat data.length :: data
  else if data.length < 0x100 then 0x4c :: Bytes.ofNatLE 1 data.length ++ data
  else if data.length < 0x10000 then 0x4d :: Bytes.ofNatLE 2 data.length ++ data
  else 0x4e :: Bytes.ofNatLE 4 data.length ++ data

/-- the opcode that moves the start of the script code -/
def Opcode.codeSeparator : Opcode := ⟨0xab⟩

/-- whether an operation stays in the script code of a check of these signatures -/
def Chunk.isSigned (signatures : List Bytes) (chunk : Chunk) : Bool :=
  chunk.operation != .code .codeSeparator && !(signatures.any fun signature => canonicalPush signature == chunk.raw)

/-- the script code from byte `start` on, for a check of the given signatures -/
def Program.scriptCode (program : Program) (start : Nat) (signatures : List Bytes) : Bytes :=
  ((program.chunksFrom start).filter (Chunk.isSigned signatures)).flatMap Chunk.raw

theorem Chunk.isSigned_iff {signatures : List Bytes} {chunk : Chunk} :
    chunk.isSigned signatures ↔
      chunk.operation ≠ .code .codeSeparator ∧ ∀ signature ∈ signatures, chunk.raw ≠ canonicalPush signature := by
  simp only [isSigned, Bool.and_eq_true, bne_iff_ne, Bool.not_eq_true', List.any_eq_false, beq_iff_eq, ne_eq,
    eq_comm (a := chunk.raw)]

/-- the signatures count as a set -/
theorem Program.scriptCode_congr {signatures signatures' : List Bytes}
    (h : ∀ signature, signature ∈ signatures' ↔ signature ∈ signatures) (program : Program) (start : Nat) :
    program.scriptCode start signatures' = program.scriptCode start signatures := by
  have hsigned : Chunk.isSigned signatures' = Chunk.isSigned signatures := by
    funext chunk
    rw [Bool.eq_iff_iff, Chunk.isSigned_iff, Chunk.isSigned_iff]
    simp only [h]
  rw [scriptCode, scriptCode, hsigned]

end BitcoinScript
