/-
ECDSA over secp256k1: a signature is a pair of numbers modulo the group order, and both (r, s) and (r, n - s) verify
under the same conditions. Verification works with the lower of the two.
-/
import BitcoinScript.Signature.Secp256k1

namespace BitcoinScript.Ecdsa

open Secp256k1

/-- the two numbers of a signature -/
structure Signature where
  r : Nat
  s : Nat
  deriving DecidableEq

/-- the signature with the lower of the two values of `s` -/
def Signature.lowS (signature : Signature) : Signature :=
  if signature.s > n / 2 then { signature with s := n - signature.s } else signature

/-- whether `signature` is one of the number `message` by the owner of `key` -/
def verify (key : Point) (message : Nat) (signature : Signature) : Bool :=
  if signature.r = 0 ∨ signature.s = 0 then false
  else
    let inverse := modInverse n signature.s
    let g := Jacobian.ofPoint generator
    let q := Jacobian.ofPoint key
    let sum := Jacobian.combine g q (g.add q) 256 (message % n * inverse % n) (signature.r * inverse % n)
    match sum.affineX? with
    | some x => x % n == signature.r
    | none => false

end BitcoinScript.Ecdsa
