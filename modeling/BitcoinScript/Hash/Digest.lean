/-
The digests that a script can ask for: the three hash functions, and the two compositions with a second pass that
addresses and transaction identifiers use.
-/
import BitcoinScript.Hash.Ripemd160
import BitcoinScript.Hash.Sha1
import BitcoinScript.Hash.Sha256

namespace BitcoinScript.Hash

/-- SHA-256 of SHA-256, the hash of transactions and signatures -/
def doubleSha256 (bs : Bytes) : Bytes :=
  Sha256.digest (Sha256.digest bs)

/-- RIPEMD-160 of SHA-256, the hash in addresses -/
def hash160 (bs : Bytes) : Bytes :=
  Ripemd160.digest (Sha256.digest bs)

/-- the digests with an opcode of their own -/
inductive Digest where
  | ripemd160
  | sha1
  | sha256
  | hash160
  | hash256
  deriving DecidableEq

/-- the digest of a byte string -/
def Digest.apply : Digest → Bytes → Bytes
  | .ripemd160 => Ripemd160.digest
  | .sha1 => Sha1.digest
  | .sha256 => Sha256.digest
  | .hash160 => Hash.hash160
  | .hash256 => Hash.doubleSha256

theorem Digest.length_apply_le (digest : Digest) (bs : Bytes) : (digest.apply bs).length ≤ 32 := by
  cases digest <;> simp [apply, Hash.hash160, doubleSha256]

end BitcoinScript.Hash
