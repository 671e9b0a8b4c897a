/-
SHA-1. The state is five words; a block of sixteen words is stretched to eighty, and every twenty of them are mixed in
with a function and a constant of their own.
-/
import BitcoinScript.Hash.Blocks

namespace BitcoinScript.Hash.Sha1

/-- the five words carried from block to block -/
structure State where
  a : UInt32
  b : UInt32
  c : UInt32
  d : UInt32
  e : UInt32

/-- the state before the first block -/
def initial : State :=
  ⟨0x67452301, 0xefcdab89, 0x98badcfe, 0x10325476, 0xc3d2e1f0⟩

/-- a block stretched to eighty words -/
def schedule (block : List UInt32) : Array UInt32 :=
  (List.range 64).foldl
    (fun w t => w.push (rotateLeft (w.getD (t + 13) 0 ^^^ w.getD (t + 8) 0 ^^^ w.getD (t + 2) 0 ^^^ w.getD t 0) 1))
    block.toArray

/-- the function and the constant of round `t` -/
def mixing (t : Nat) (b c d : UInt32) : UInt32 × UInt32 :=
  if t < 20 then (b &&& c ||| ~~~b &&& d, 0x5a827999)
  else if t < 40 then (b ^^^ c ^^^ d, 0x6ed9eba1)
  else if t < 60 then (b &&& c ||| b &&& d ||| c &&& d, 0x8f1bbcdc)
  else (b ^^^ c ^^^ d, 0xca62c1d6)

/-- mixes word `t` of the schedule into the state -/
def round (s : State) (wt : UInt32 × Nat) : State :=
  let (f, k) := mixing wt.2 s.b s.c s.d
  ⟨rotateLeft s.a 5 + f + s.e + k + wt.1, s.a, rotateLeft s.b 30, s.c, s.d⟩

/-- folds one block into the state -/
def compress (s : State) (block : List UInt32) : State :=
  let t := (schedule block).toList.zipIdx.foldl round s
  ⟨s.a + t.a, s.b + t.b, s.c + t.c, s.d + t.d, s.e + t.e⟩

/-- the SHA-1 digest, 20 bytes -/
def digest (message : Bytes) : Bytes :=
  let s := (messageBlocks .big message).foldl compress initial
  unwords .big [s.a, s.b, s.c, s.d, s.e]

@[simp] theorem length_digest (message : Bytes) : (digest message).length = 20 := by
  simp [digest]

end BitcoinScript.Hash.Sha1
