/-
Byte strings. Scripts, stack items, keys, signatures and transactions are all lists of bytes, and the numbers in them
are written with the least significant byte first (scripts, transactions) or last (hashes, curve coordinates).

`split?` cuts a byte string at a given length and refuses one that is too short. The number of a byte string, written
again at its width, gives the string back (`ofNatLE_toNatLE`), and a number that fits a width is the number of what is
written (`toNatLE_ofNatLE`).
-/

namespace BitcoinScript

/-- a string of bytes -/
abbrev Bytes := List UInt8

namespace Bytes

/-- the first `n` bytes and the rest, if there are that many -/
def split? (n : Nat) (bs : Bytes) : Option (Bytes × Bytes) :=
  let front := bs.take n
  if front.length = n then some (front, bs.drop n) else none

/-- the number whose bytes are `bs`, least significant first -/
def toNatLE : Bytes → Nat
  | [] => 0
  | b :: bs => b.toNat + 256 * toNatLE bs

/-- the `width` low bytes of `n`, least significant first -/
def ofNatLE : (width n : Nat) → Bytes
  | 0, _ => []
  | width + 1, n => UInt8.ofNat n :: ofNatLE width (n / 256)

/-- how many numbers are written in `width` bytes -/
def capacity : (width : Nat) → Nat
  | 0 => 1
  | width + 1 => 256 * capacity width

/-- the number whose bytes are `bs`, most significant first -/
def toNatBE (bs : Bytes) : Nat :=
  bs.foldl (fun n b => 256 * n + b.toNat) 0

/-- the `width` low bytes of `n`, most significant first -/
def ofNatBE (width n : Nat) : Bytes :=
  (ofNatLE width n).reverse

theorem split?_eq_some_iff {n : Nat} {bs front rest : Bytes} :
    split? n bs = some (front, rest) ↔ bs = front ++ rest ∧ front.length = n := by
  simp only [split?]
  constructor
  · intro h
    split at h
    · cases h
      exact ⟨(List.take_append_drop n bs).symm, by assumption⟩
    · cases h
  · rintro ⟨rfl, rfl⟩
    simp

theorem split?_append {n : Nat} {front : Bytes} (h : front.length = n) (rest : Bytes) :
    split? n (front ++ rest) = some (front, rest) :=
  split?_eq_some_iff.2 ⟨rfl, h⟩

theorem split?_eq_none {n : Nat} {bs : Bytes} (h : bs.length < n) : split? n bs = none := by
  have hshort : (bs.take n).length ≠ n := by
    rw [List.length_take]
    omega
  simp only [split?, hshort, if_false]

@[simp] theorem length_ofNatLE (width n : Nat) : (ofNatLE width n).length = width := by
  induction width generalizing n with
  | zero => rfl
  | succ width ih => simp [ofNatLE, ih]

theorem ofNatLE_toNatLE (bs : Bytes) : ofNatLE bs.length (toNatLE bs) = bs := by
  induction bs with
  | nil => rfl
  | cons b bs ih =>
    have hb := b.toNat_lt
    have hd : (b.toNat + 256 * toNatLE bs) / 256 = toNatLE bs := by omega
    simp only [List.length_cons, toNatLE, ofNatLE, hd, ih, List.cons.injEq, and_true]
    apply UInt8.toNat_inj.mp
    simp only [UInt8.toNat_ofNat']
    omega

theorem toNatLE_ofNatLE {width n : Nat} (h : n < capacity width) : toNatLE (ofNatLE width n) = n := by
  induction width generalizing n with
  | zero => exact (Nat.lt_one_iff.1 h).symm
  | succ width ih =>
    have hd : n / 256 < capacity width := Nat.div_lt_of_lt_mul h
    simp only [ofNatLE, toNatLE, ih hd, UInt8.toNat_ofNat']
    omega

theorem toNatLE_lt (bs : Bytes) : toNatLE bs < capacity bs.length := by
  induction bs with
  | nil => exact Nat.zero_lt_one
  | cons b bs ih =>
    have hb := b.toNat_lt
    rw [toNatLE, List.length_cons, capacity]
    omega

end Bytes

end BitcoinScript
