/-
What a signature commits to. The last byte of a signature, here a word of 32 bits, selects which inputs and outputs are
covered; a copy of the transaction that keeps only what is covered is written out, with the script code in place of the
script of the signed input and followed by the word itself, and its double SHA-256 is signed.

A signature that covers the single output beside its input signs the number 1 if there is no such output.
-/
import BitcoinScript.Failure
import BitcoinScript.Transaction.Writer

namespace BitcoinScript

/-- the outputs that a signature covers -/
inductive CoveredOutputs where
  | all
  | none
  /-- the one with the index of the signed input -/
  | single
  deriving DecidableEq

/-- what a signature covers -/
structure Coverage where
  outputs : CoveredOutputs
  /-- whether other inputs may be added and left out -/
  anyoneCanPay : Bool
  deriving DecidableEq

/-- what the low byte of a hash type selects -/
def Coverage.ofHashType (hashType : UInt32) : Coverage where
  outputs := if hashType &&& 0x1f = 2 then .none else if hashType &&& 0x1f = 3 then .single else .all
  anyoneCanPay := hashType &&& 0x80 != 0

namespace Transaction

/-- an output that stands for one that is not covered -/
def blankOutput : Output := ⟨0xffffffffffffffff, []⟩

/-- the inputs of the signed copy -/
def coveredInputs (tx : Transaction) (index : Nat) (code : Bytes) (coverage : Coverage) : List Input :=
  let signed (input : Input) : Input := { input with script := code, witness := [] }
  if coverage.anyoneCanPay then tx.inputs[index]?.toList.map signed
  else
    tx.inputs.mapIdx fun i input =>
      if i = index then signed input
      else
        let sequence := if coverage.outputs = .all then input.sequence else 0
        { input with script := [], sequence, witness := [] }

/-- the outputs of the signed copy -/
def coveredOutputs (tx : Transaction) (index : Nat) (coverage : Coverage) : List Output :=
  match coverage.outputs with
  | .all => tx.outputs
  | .none => []
  | .single => (tx.outputs.take (index + 1)).mapIdx fun i output => if i = index then output else blankOutput

/-- the copy of a transaction that keeps what a signature covers -/
def signedCopy (tx : Transaction) (index : Nat) (code : Bytes) (coverage : Coverage) : Transaction where
  version := tx.version
  inputs := tx.coveredInputs index code coverage
  outputs := tx.coveredOutputs index coverage
  lockTime := tx.lockTime

/-- the bytes whose double SHA-256 is signed -/
def signaturePreimage (tx : Transaction) (index : Nat) (code : Bytes) (hashType : UInt32) : Bytes :=
  (tx.signedCopy index code (.ofHashType hashType)).encodePlain ++ Bytes.ofNatLE 4 hashType.toNat

/-- the digest 1 that is signed for lack of a single output, its bytes in the order of a digest -/
def unitDigest : Bytes :=
  1 :: List.replicate 31 0

/-- the digest that a signature for input `index` signs -/
def signatureHash (tx : Transaction) (index : Nat) (code : Bytes) (hashType : UInt32) : Except Failure Bytes :=
  if tx.inputs.length ≤ index then .error .signedInput
  else if (Coverage.ofHashType hashType).outputs = .single ∧ tx.outputs.length ≤ index then .ok unitDigest
  else .ok (Hash.doubleSha256 (tx.signaturePreimage index code hashType))

end Transaction

end BitcoinScript
