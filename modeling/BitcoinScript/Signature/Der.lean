/-
The written form of a signature, read leniently: a sequence of two integers in the style of DER, where

* the length of the sequence is skipped, and so is whatever follows the second integer;
* a length may be written in the long form, and its leading zeros do not count;
* the integers are unsigned and may have leading zeros;
* an integer that is not below the group order makes both of them zero, which no check accepts.
-/
import BitcoinScript.Bytes
import BitcoinScript.Signature.Ecdsa

namespace BitcoinScript.Der

open Ecdsa (Signature)

/-- what follows the tag and the length of a sequence -/
def sequence? : Bytes → Option Bytes
  | tag :: length :: rest =>
    if tag ≠ 0x30 then none
    else if length < 0x80 then some rest
    else (Bytes.split? (length.toNat - 0x80) rest).map (·.2)
  | _ => none

/-- reads a length of at most three significant bytes in the long form, or a short one of a single byte -/
def length? : Bytes → Option (Nat × Bytes)
  | first :: rest =>
    if first < 0x80 then some (first.toNat, rest)
    else do
      let (digits, rest) ← Bytes.split? (first.toNat - 0x80) rest
      let significant := digits.dropWhile (· == 0)
      if significant.length < 4 then some (Bytes.toNatBE significant, rest) else none
  | [] => none

/-- reads an unsigned integer -/
def integer? : Bytes → Option (Nat × Bytes)
  | tag :: rest =>
    if tag ≠ 0x02 then none
    else do
      let (length, rest) ← length? rest
      let (digits, rest) ← Bytes.split? length rest
      some (Bytes.toNatBE digits, rest)
  | [] => none

/-- the signature of a written form -/
def parse? (bs : Bytes) : Option Signature := do
  let rest ← sequence? bs
  let (r, rest) ← integer? rest
  let (s, _) ← integer? rest
  if r < Secp256k1.n ∧ s < Secp256k1.n then some ⟨r, s⟩ else some ⟨0, 0⟩

end BitcoinScript.Der
