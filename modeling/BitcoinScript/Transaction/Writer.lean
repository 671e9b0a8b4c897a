/-
The written forms of a transaction. The plain form leaves the witnesses out and is what the identifier is computed from;
the form with witnesses is used when there is one to write, and for a transaction without inputs, whose plain form would
be read as the other.
-/
import BitcoinScript.Hash.Digest
import BitcoinScript.Transaction.Basic
import BitcoinScript.Transaction.CompactSize

namespace BitcoinScript

/-- an input without its witness -/
def Input.encode (input : Input) : Bytes :=
  input.source.txid.bytes ++ Bytes.ofNatLE 4 input.source.index.toNat ++ CompactSize.lengthPrefixed input.script
    ++ Bytes.ofNatLE 4 input.sequence.toNat

/-- an output -/
def Output.encode (output : Output) : Bytes :=
  Bytes.ofNatLE 8 output.value.toNat ++ CompactSize.lengthPrefixed output.script

namespace Transaction

/-- the version number -/
def encodeVersion (tx : Transaction) : Bytes :=
  Bytes.ofNatLE 4 tx.version.toUInt32.toNat

/-- the inputs and the outputs -/
def encodeBody (tx : Transaction) : Bytes :=
  CompactSize.counted Input.encode tx.inputs ++ CompactSize.counted Output.encode tx.outputs

/-- the lock time -/
def encodeLockTime (tx : Transaction) : Bytes :=
  Bytes.ofNatLE 4 tx.lockTime.toNat

/-- the plain form -/
def encodePlain (tx : Transaction) : Bytes :=
  tx.encodeVersion ++ tx.encodeBody ++ tx.encodeLockTime

/-- the form with witnesses -/
def encodeWithWitnesses (tx : Transaction) : Bytes :=
  tx.encodeVersion ++ [0x00, 0x01] ++ tx.encodeBody
    ++ tx.inputs.flatMap (fun input => CompactSize.counted CompactSize.lengthPrefixed input.witness)
    ++ tx.encodeLockTime

/-- whether some input has a witness -/
def hasWitness (tx : Transaction) : Bool :=
  tx.inputs.any fun input => !input.witness.isEmpty

/-- the written form -/
def encode (tx : Transaction) : Bytes :=
  if tx.hasWitness || tx.inputs.isEmpty then tx.encodeWithWitnesses else tx.encodePlain

/-- the identifier, the double SHA-256 of the plain form -/
def txid (tx : Transaction) : TxId where
  bytes := Hash.doubleSha256 tx.encodePlain
  length_bytes := Hash.Sha256.length_digest _

end Transaction

end BitcoinScript
