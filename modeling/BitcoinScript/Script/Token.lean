/-
The byte string of a script as a list of tokens: opcodes that stand alone, and pushes with their length bytes and data.
A script that ends inside a push ends with a token that says where it was cut; so every byte string has tokens.
-/
import BitcoinScript.Bytes
import BitcoinScript.Opcode

namespace BitcoinScript

/-- how the opcode of a push gives the length of its data -/
inductive PushForm where
  /-- the opcode is the length -/
  | direct (length : Nat)
  /-- the length stands in the next `width` bytes, least significant first -/
  | counted (width : Nat)
  deriving DecidableEq

/-- how an opcode pushes, if it does -/
def Opcode.pushForm? (op : Opcode) : Option PushForm :=
  if op.byte ≤ 0x4b then some (.direct op.byte.toNat)
  else if op.byte = 0x4c then some (.counted 1)
  else if op.byte = 0x4d then some (.counted 2)
  else if op.byte = 0x4e then some (.counted 4)
  else none

/-- a piece of a script -/
inductive Token where
  | single (op : Opcode)
  | push (op : Opcode) (lengthBytes data : Bytes)
  /-- a push whose length bytes are missing -/
  | cutLength (op : Opcode)
  /-- a push whose data are missing -/
  | cutData (op : Opcode)
  deriving DecidableEq

namespace Token

/-- the token that an opcode begins, and what follows it -/
def next (op : Opcode) (rest : Bytes) : Token × Bytes :=
  match op.pushForm? with
  | none => (.single op, rest)
  | some (.direct length) =>
    match Bytes.split? length rest with
    | none => (.cutData op, [])
    | some (data, rest) => (.push op [] data, rest)
  | some (.counted width) =>
    match Bytes.split? width rest with
    | none => (.cutLength op, [])
    | some (lengthBytes, rest) =>
      match Bytes.split? (Bytes.toNatLE lengthBytes) rest with
      | none => (.cutData op, [])
      | some (data, rest) => (.push op lengthBytes data, rest)

theorem length_next_le (op : Opcode) (rest : Bytes) : (next op rest).2.length ≤ rest.length := by
  unfold next
  split
  · exact Nat.le_refl _
  · split
    · exact Nat.zero_le _
    · rename_i h
      rw [(Bytes.split?_eq_some_iff.1 h).1, List.length_append]
      exact Nat.le_add_left _ _
  · split
    · exact Nat.zero_le _
    · rename_i h
      rw [(Bytes.split?_eq_some_iff.1 h).1, List.length_append]
      split
      · exact Nat.zero_le _
      · rename_i h'
        rw [(Bytes.split?_eq_some_iff.1 h').1, List.length_append]
        simp only
        omega

/-- the tokens of a script -/
def scan : Bytes → List Token
  | [] => []
  | b :: bs =>
    let step := next ⟨b⟩ bs
    step.1 :: scan step.2
termination_by bs => bs.length
decreasing_by exact Nat.lt_succ_of_le (length_next_le _ _)

/-- the bytes of a token -/
def raw : Token → Bytes
  | .single op | .cutLength op | .cutData op => [op.byte]
  | .push op lengthBytes data => op.byte :: lengthBytes ++ data

end Token

end BitcoinScript
