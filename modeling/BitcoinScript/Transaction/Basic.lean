/-
Transactions: the outputs of earlier transactions that are spent, each with the script and the witness that unlock it,
and the new outputs with their amounts. All numbers are words of fixed width.
-/
import BitcoinScript.Hex

namespace BitcoinScript

/-- the identifier of a transaction, a digest of 32 bytes -/
structure TxId where
  bytes : Bytes
  length_bytes : bytes.length = 32
  deriving DecidableEq

/-- the text of an identifier, which shows the bytes of the digest last to first -/
def TxId.text (id : TxId) : String :=
  Hex.encode id.bytes.reverse

/-- an output of an earlier transaction -/
structure OutPoint where
  txid : TxId
  index : UInt32
  deriving DecidableEq

/-- an input, which spends an output -/
structure Input where
  source : OutPoint
  script : Bytes
  sequence : UInt32
  witness : List Bytes
  deriving DecidableEq

/-- an output, which an input of a later transaction may spend -/
structure Output where
  value : UInt64
  script : Bytes
  deriving DecidableEq

/-- a transaction -/
structure Transaction where
  version : Int32
  inputs : List Input
  outputs : List Output
  lockTime : UInt32
  deriving DecidableEq

end BitcoinScript
