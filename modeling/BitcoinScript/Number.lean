/-
Numbers as stack items. A number is written in signed magnitude with the least significant byte first, its sign in the
high bit of the last byte, in as few bytes as possible; zero is the empty string. Items may be read as numbers in longer
forms too, unless minimal forms are asked for, and an item is true if its value is not zero.
-/
import BitcoinScript.Failure

namespace BitcoinScript.Number

/-! ## Values -/

/-- whether the sign bit is set -/
def isNegative : Bytes → Bool
  | [] => false
  | [b] => 0x80 ≤ b
  | _ :: b :: bs => isNegative (b :: bs)

/-- the value without the sign bit -/
def magnitude : Bytes → Nat
  | [] => 0
  | [b] => b.toNat % 0x80
  | b :: c :: bs => b.toNat + 0x100 * magnitude (c :: bs)

/-- the value of a byte string -/
def decode (bs : Bytes) : Int :=
  if isNegative bs then -(magnitude bs : Int) else magnitude bs

/-- a magnitude and a sign in as few bytes as possible, but at least one -/
def encodeSigned (negative : Bool) (n : Nat) : Bytes :=
  if n < 0x80 then [UInt8.ofNat (if negative then 0x80 + n else n)]
  else UInt8.ofNat n :: encodeSigned negative (n / 0x100)

/-- the written form of a number -/
def encode (n : Int) : Bytes :=
  if n = 0 then [] else encodeSigned (n < 0) n.natAbs

/-- the written form of a truth value -/
def ofBool (b : Bool) : Bytes :=
  encode (if b then 1 else 0)

/-- whether an item is true: it has a byte other than zero, not counting a lone sign bit at its end -/
def isTrue : Bytes → Bool
  | [] => false
  | [b] => b != 0x00 && b != 0x80
  | b :: c :: bs => b != 0x00 || isTrue (c :: bs)

/-! ## Reading operands -/

/-- whether no shorter string has the same value: the last byte holds more than a sign, or the one before it needs the
last for the sign -/
def isMinimal : Bytes → Bool
  | [] => true
  | [b] => b.toNat % 0x80 != 0
  | [b, c] => c.toNat % 0x80 != 0 || 0x80 ≤ b
  | _ :: c :: d :: bs => isMinimal (c :: d :: bs)

/-- reads an operand of at most `limit` bytes, which must be minimal if `strict` -/
def read (bs : Bytes) (limit : Nat) (strict : Bool) : Except Failure Int :=
  if limit < bs.length then .error (.longOperand bs.length limit)
  else if strict && !isMinimal bs then .error (.paddedNumber bs)
  else .ok (decode bs)

end BitcoinScript.Number
