/-
What the three hash functions of script have in common: a message is padded to a whole number of blocks of sixteen
32-bit words, a state is folded over the blocks, and the last state is written out as the digest. They differ in the
order of the bytes in a word, in the state and in how a block is folded in.

The padding is one byte `80`, zeros up to eight bytes short of a whole block, and the length of the message in bits.
-/
import BitcoinScript.Bytes

namespace BitcoinScript.Hash

/-- the order of the bytes in a word -/
inductive ByteOrder where
  | big
  | little
  deriving DecidableEq

/-- the bytes of a number below `256 ^ width` in a byte order -/
def ByteOrder.write (order : ByteOrder) (width n : Nat) : Bytes :=
  match order with
  | .big => Bytes.ofNatBE width n
  | .little => Bytes.ofNatLE width n

/-- the word of four bytes in a byte order -/
def ByteOrder.word (order : ByteOrder) (a b c d : UInt8) : UInt32 :=
  match order with
  | .big => a.toUInt32 <<< 24 ||| b.toUInt32 <<< 16 ||| c.toUInt32 <<< 8 ||| d.toUInt32
  | .little => d.toUInt32 <<< 24 ||| c.toUInt32 <<< 16 ||| b.toUInt32 <<< 8 ||| a.toUInt32

/-- the words of a byte string whose length is a multiple of four -/
def words (order : ByteOrder) : Bytes → List UInt32
  | a :: b :: c :: d :: rest => order.word a b c d :: words order rest
  | _ => []

/-- the bytes of a list of words -/
def unwords (order : ByteOrder) (ws : List UInt32) : Bytes :=
  ws.flatMap fun w => order.write 4 w.toNat

@[simp] theorem length_unwords (order : ByteOrder) (ws : List UInt32) :
    (unwords order ws).length = 4 * ws.length := by
  induction ws with
  | nil => rfl
  | cons w ws ih =>
    have four : (order.write 4 w.toNat).length = 4 := by
      cases order <;> simp [ByteOrder.write, Bytes.ofNatBE]
    rw [unwords] at ih ⊢
    rw [List.flatMap_cons, List.length_append, ih, four, List.length_cons]
    omega

/-- what follows a message of the given length, to make it a whole number of 64-byte blocks -/
def padding (order : ByteOrder) (length : Nat) : Bytes :=
  0x80 :: List.replicate ((119 - length % 64) % 64) 0 ++ order.write 8 (8 * length)

/-- the first `count` runs of sixteen words -/
def blocks : (count : Nat) → List UInt32 → List (List UInt32)
  | 0, _ => []
  | count + 1, ws => ws.take 16 :: blocks count (ws.drop 16)

/-- the blocks of a message after padding -/
def messageBlocks (order : ByteOrder) (message : Bytes) : List (List UInt32) :=
  let ws := words order (message ++ padding order message.length)
  blocks (ws.length / 16) ws

/-- the word turned left by `n` bits, for `n` from 1 to 31 -/
def rotateLeft (w n : UInt32) : UInt32 :=
  w <<< n ||| w >>> (32 - n)

/-- the word turned right by `n` bits, for `n` from 1 to 31 -/
def rotateRight (w n : UInt32) : UInt32 :=
  w >>> n ||| w <<< (32 - n)

end BitcoinScript.Hash
