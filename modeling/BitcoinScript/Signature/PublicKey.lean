/-
Public keys as byte strings. A key is a point of the curve, written in one of three forms: 33 bytes with the parity of y
in the first, 65 bytes with both coordinates, or 65 bytes with both and the parity as well. All else is no key.
-/
import BitcoinScript.Bytes
import BitcoinScript.Signature.Secp256k1

namespace BitcoinScript.PublicKey

open Secp256k1

/-- the point of a key in one of its written forms -/
def parse? : Bytes → Option Point
  | [] => none
  | form :: coordinates =>
    let x := Bytes.toNatBE (coordinates.take 32)
    let y := Bytes.toNatBE (coordinates.drop 32)
    if coordinates.length = 32 then
      if form = 0x02 then Point.ofX? x false
      else if form = 0x03 then Point.ofX? x true
      else none
    else if coordinates.length = 64 then
      if form = 0x04 ∨ form = 0x06 ∧ y % 2 = 0 ∨ form = 0x07 ∧ y % 2 = 1 then Point.ofCoordinates? x y
      else none
    else none

end BitcoinScript.PublicKey
