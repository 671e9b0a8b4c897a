/-
Checking a signature of a spend. A key, a signature or a signature body that cannot be read makes the check fail, and so
does not end a run.
-/
import BitcoinScript.Signature.Der
import BitcoinScript.Signature.PublicKey
import BitcoinScript.Transaction.SignatureHash
import BitcoinScript.Transaction.Spend

namespace BitcoinScript

/-- the body of a signature and the hash type in its last byte -/
def splitHashType? (signature : Bytes) : Option (Bytes × UInt32) :=
  signature.getLast?.map fun last => (signature.dropLast, last.toUInt32)

/-- whether `signature` is one by `key` over the script code `code`, for the bound input -/
def Spend.checkSignature (spend : Spend) (signature key code : Bytes) : Except Failure Bool :=
  match PublicKey.parse? key, splitHashType? signature with
  | some point, some (body, hashType) =>
    match Der.parse? body with
    | some pair =>
      (spend.tx.signatureHash spend.index code hashType).map fun digest =>
        Ecdsa.verify point (Bytes.toNatBE digest) pair.lowS
    | none => .ok false
  | _, _ => .ok false

end BitcoinScript
