/-
RIPEMD-160. A block is mixed into two copies of a five-word state, along two lines of eighty rounds that take its words
in different orders and turn them by different amounts; the two results are then added crosswise to the state before.
-/
import BitcoinScript.Hash.Blocks

namespace BitcoinScript.Hash.Ripemd160

/-- the five words carried from block to block -/
structure State where
  a : UInt32
  b : UInt32
  c : UInt32
  d : UInt32
  e : UInt32

/-- the state before the first block -/
def initial : State :=
  ⟨0x67452301, 0xefcdab89, 0x98badcfe, 0x10325476, 0xc3d2e1f0⟩

/-- one of the two lines of rounds: which word each round takes and by how many bits it turns -/
structure Line where
  order : List Nat
  turns : List UInt32
  /-- the constants, one for every sixteen rounds -/
  constants : List UInt32
  /-- the mixing functions, one for every sixteen rounds -/
  functions : List (UInt32 → UInt32 → UInt32 → UInt32)

/-- the five mixing functions -/
def functions : List (UInt32 → UInt32 → UInt32 → UInt32) :=
  [fun x y z => x ^^^ y ^^^ z,
    fun x y z => x &&& y ||| ~~~x &&& z,
    fun x y z => (x ||| ~~~y) ^^^ z,
    fun x y z => x &&& z ||| y &&& ~~~z,
    fun x y z => x ^^^ (y ||| ~~~z)]

/-- the first line -/
def left : Line where
  order :=
    [0, 1, 2, 3, 4, 5, 6, 7, 8, 9, 10, 11, 12, 13, 14, 15,
      7, 4, 13, 1, 10, 6, 15, 3, 12, 0, 9, 5, 2, 14, 11, 8,
      3, 10, 14, 4, 9, 15, 8, 1, 2, 7, 0, 6, 13, 11, 5, 12,
      1, 9, 11, 10, 0, 8, 12, 4, 13, 3, 7, 15, 14, 5, 6, 2,
      4, 0, 5, 9, 7, 12, 2, 10, 14, 1, 3, 8, 11, 6, 15, 13]
  turns :=
    [11, 14, 15, 12, 5, 8, 7, 9, 11, 13, 14, 15, 6, 7, 9, 8,
      7, 6, 8, 13, 11, 9, 7, 15, 7, 12, 15, 9, 11, 7, 13, 12,
      11, 13, 6, 7, 14, 9, 13, 15, 14, 8, 13, 6, 5, 12, 7, 5,
      11, 12, 14, 15, 14, 15, 9, 8, 9, 14, 5, 6, 8, 6, 5, 12,
      9, 15, 5, 11, 6, 8, 13, 12, 5, 12, 13, 14, 11, 8, 5, 6]
  constants := [0x00000000, 0x5a827999, 0x6ed9eba1, 0x8f1bbcdc, 0xa953fd4e]
  functions := functions

/-- the second line, which takes the mixing functions in the opposite order -/
def right : Line where
  order :=
    [5, 14, 7, 0, 9, 2, 11, 4, 13, 6, 15, 8, 1, 10, 3, 12,
      6, 11, 3, 7, 0, 13, 5, 10, 14, 15, 8, 12, 4, 9, 1, 2,
      15, 5, 1, 3, 7, 14, 6, 9, 11, 8, 12, 2, 10, 0, 4, 13,
      8, 6, 4, 1, 3, 11, 15, 0, 5, 12, 2, 13, 9, 7, 10, 14,
      12, 15, 10, 4, 1, 5, 8, 7, 6, 2, 13, 14, 0, 3, 9, 11]
  turns :=
    [8, 9, 9, 11, 13, 15, 15, 5, 7, 7, 8, 11, 14, 14, 12, 6,
      9, 13, 15, 7, 12, 8, 9, 11, 7, 7, 12, 7, 6, 15, 13, 11,
      9, 7, 15, 11, 8, 6, 6, 14, 12, 13, 5, 14, 13, 13, 7, 5,
      15, 5, 8, 11, 14, 14, 6, 14, 6, 9, 12, 9, 12, 5, 15, 8,
      8, 5, 12, 9, 12, 5, 14, 6, 8, 13, 6, 5, 15, 13, 11, 11]
  constants := [0x50a28be6, 0x5c4dd124, 0x6d703ef3, 0x7a6d76e9, 0x00000000]
  functions := functions.reverse

/-- what a round needs: its function, its constant, the word it takes and its turn -/
structure Round where
  function : UInt32 → UInt32 → UInt32 → UInt32
  constant : UInt32
  word : UInt32
  turn : UInt32

/-- the eighty rounds of a line on a block -/
def Line.rounds (line : Line) (block : List UInt32) : List Round :=
  let words := line.order.map fun i => block.getD i 0
  let sixteen {α : Type} (xs : List α) : List α := xs.flatMap (List.replicate 16)
  (((sixteen line.functions).zip (sixteen line.constants)).zip (words.zip line.turns)).map
    fun ((f, k), (w, t)) => ⟨f, k, w, t⟩

/-- one round -/
def round (s : State) (r : Round) : State :=
  let t := rotateLeft (s.a + r.function s.b s.c s.d + r.word + r.constant) r.turn + s.e
  ⟨s.e, t, s.b, rotateLeft s.c 10, s.d⟩

/-- folds one block into the state -/
def compress (s : State) (block : List UInt32) : State :=
  let l := (left.rounds block).foldl round s
  let r := (right.rounds block).foldl round s
  ⟨s.b + l.c + r.d, s.c + l.d + r.e, s.d + l.e + r.a, s.e + l.a + r.b, s.a + l.b + r.c⟩

/-- the RIPEMD-160 digest, 20 bytes -/
def digest (message : Bytes) : Bytes :=
  let s := (messageBlocks .little message).foldl compress initial
  unwords .little [s.a, s.b, s.c, s.d, s.e]

@[simp] theorem length_digest (message : Bytes) : (digest message).length = 20 := by
  simp [digest]

end BitcoinScript.Hash.Ripemd160
