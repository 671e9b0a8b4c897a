/-
Counts and lengths inside a transaction. A number is written in the shortest of four forms: one byte below `fd`, or a
marker byte `fd`, `fe` or `ff` and the number in two, four or eight bytes.
-/
import BitcoinScript.Bytes

namespace BitcoinScript.CompactSize

/-- the written form of a number below `2 ^ 64` -/
def encode (n : Nat) : Bytes :=
  if n < 0xfd then Bytes.ofNatLE 1 n
  else if n < 0x10000 then 0xfd :: Bytes.ofNatLE 2 n
  else if n < 0x100000000 then 0xfe :: Bytes.ofNatLE 4 n
  else 0xff :: Bytes.ofNatLE 8 n

/-- the number of bytes in the written form -/
def size (n : Nat) : Nat :=
  if n < 0xfd then 1 else if n < 0x10000 then 3 else if n < 0x100000000 then 5 else 9

/-- a byte string after its length -/
def lengthPrefixed (bs : Bytes) : Bytes :=
  encode bs.length ++ bs

/-- a list after its length, its members written by `write` -/
def counted {α : Type} (write : α → Bytes) (xs : List α) : Bytes :=
  encode xs.length ++ xs.flatMap write

theorem length_encode (n : Nat) : (encode n).length = size n := by
  unfold encode size
  split
  · simp
  · split
    · simp
    · split <;> simp

theorem length_lengthPrefixed (bs : Bytes) : (lengthPrefixed bs).length = size bs.length + bs.length := by
  rw [lengthPrefixed, List.length_append, length_encode]

theorem size_pos (n : Nat) : 0 < size n := by
  unfold size
  split
  · decide
  · split
    · decide
    · split <;> decide

end BitcoinScript.CompactSize
