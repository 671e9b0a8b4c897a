/-
The written forms of numbers. A number has one shortest form, which is what is written, and reading with minimal forms
alone accepts that one and nothing else. The other forms are longer: they end in a byte that holds nothing but the sign,
although the byte before it has room for that. The value of any form is that of its bytes in signed magnitude.

Results:
- `Number.decode_eq_signedMagnitude`: the value by recursion on the bytes is the one in signed magnitude.
- `Number.decode_encode`, `Number.isMinimal_encode`: what is written is minimal, and has the value of the number.
- `Number.encode_decode_of_isMinimal`: a minimal string is what is written for its value.
- `numbers_read_as_written`: a number of less than 63 bits is written in at most eight bytes, and one of less than 55
  bits is read back from what is written for it, with minimal forms asked for. Let a string be read that may have at
  most so many bytes, seven or fewer;
  - with minimal forms asked for, it is read as a number if and only if it is not too long and is what is written for
    that number;
  - otherwise, it is read as a number if and only if it is not too long and this is its value in signed magnitude, which
    for the empty string is zero; what is written for that number is then not longer than the string, and is the string
    itself if and only if that is also read with minimal forms asked for;
  - a number that is read has less than 55 bits, and whatever is refused is refused as an overflow.
-/
import Mathlib.Algebra.Group.Nat.Defs
import BitcoinScript.Proofs.FailureKind

namespace BitcoinScript

namespace Number

/-! ## Signed magnitude -/

/-- the value of the bytes, the least significant first and the highest bit for the sign -/
def signedMagnitude (bs : Bytes) : Int :=
  let signBit := 2 ^ (8 * bs.length - 1)
  let n := Bytes.toNatLE bs
  if n < signBit then (n : Int) else -((n - signBit : Nat) : Int)

theorem signBit_eq (n : Nat) : 2 ^ (8 * (n + 1) - 1) = 0x80 * 0x100 ^ n := by
  calc 2 ^ (8 * (n + 1) - 1)
    _ = 2 ^ (7 + 8 * n) := by congr 1; omega
    _ = 2 ^ 7 * (2 ^ 8) ^ n := by rw [Nat.pow_add, Nat.pow_mul]

theorem toNatLE_cons (b : UInt8) (bs : Bytes) :
    Bytes.toNatLE (b :: bs) =
        magnitude (b :: bs) + (if isNegative (b :: bs) then 0x80 * 0x100 ^ bs.length else 0) ∧
      magnitude (b :: bs) < 0x80 * 0x100 ^ bs.length := by
  induction bs generalizing b with
  | nil =>
    have hb := b.toNat_lt
    simp only [Bytes.toNatLE, magnitude, isNegative, List.length_nil, UInt8.le_iff_toNat_le, UInt8.reduceToNat,
      decide_eq_true_eq]
    split <;> omega
  | cons c bs ih =>
    have hb := b.toNat_lt
    obtain ⟨hvalue, hlt⟩ := ih c
    simp only [Bytes.toNatLE, magnitude, isNegative, List.length_cons, Nat.pow_succ] at hvalue ⊢
    split at hvalue <;> rename_i hneg <;> simp only [hneg, if_true, if_false, Bool.false_eq_true] <;> omega

/-- the value by recursion on the bytes is the one in signed magnitude -/
theorem decode_eq_signedMagnitude (bs : Bytes) : decode bs = signedMagnitude bs := by
  rcases bs with _ | ⟨b, bs⟩
  · rfl
  · obtain ⟨hvalue, hlt⟩ := toNatLE_cons b bs
    simp only [decode, signedMagnitude, List.length_cons, signBit_eq]
    split at hvalue <;> rename_i hneg
    · rw [if_pos hneg, if_neg (by omega), hvalue, Nat.add_sub_cancel]
    · rw [if_neg hneg, if_pos (by omega), hvalue, Nat.add_zero]

theorem natAbs_decode (bs : Bytes) : (decode bs).natAbs = magnitude bs := by
  unfold decode
  split <;> simp

/-- an item is true if and only if its value is not zero -/
theorem isTrue_iff (bs : Bytes) : isTrue bs ↔ decode bs ≠ 0 := by
  rw [← Int.natAbs_ne_zero, natAbs_decode]
  induction bs using magnitude.induct with
  | case1 => decide
  | case2 b =>
    rw [isTrue, magnitude, Bool.and_eq_true, bne_iff_ne, bne_iff_ne, ne_eq, ne_eq, ← UInt8.toNat_inj, ← UInt8.toNat_inj]
    have hb : b.toNat < 0x100 := b.toNat_lt
    simp only [UInt8.reduceToNat]
    omega
  | case3 b c bs ih =>
    rw [isTrue, magnitude, Bool.or_eq_true, bne_iff_ne, ih, ne_eq, ← UInt8.toNat_inj]
    simp only [UInt8.reduceToNat]
    omega

/-! ## What is written -/

theorem encodeSigned_of_lt (negative : Bool) {n : Nat} (h : n < 0x80) :
    encodeSigned negative n = [UInt8.ofNat (if negative then 0x80 + n else n)] := by
  rw [encodeSigned, if_pos h]

theorem encodeSigned_of_le (negative : Bool) {n : Nat} (h : 0x80 ≤ n) :
    encodeSigned negative n = UInt8.ofNat n :: encodeSigned negative (n / 0x100) := by
  rw [encodeSigned, if_neg (Nat.not_lt.2 h)]

theorem encodeSigned_ne_nil (negative : Bool) (n : Nat) : encodeSigned negative n ≠ [] := by
  rw [encodeSigned]
  split <;> simp

theorem isNegative_cons (b : UInt8) {bs : Bytes} (h : bs ≠ []) : isNegative (b :: bs) = isNegative bs := by
  obtain ⟨c, bs, rfl⟩ := List.exists_cons_of_ne_nil h
  rfl

theorem magnitude_cons (b : UInt8) {bs : Bytes} (h : bs ≠ []) :
    magnitude (b :: bs) = b.toNat + 0x100 * magnitude bs := by
  obtain ⟨c, bs, rfl⟩ := List.exists_cons_of_ne_nil h
  rfl

theorem encodeSigned_spec (negative : Bool) (n : Nat) :
    isNegative (encodeSigned negative n) = negative ∧ magnitude (encodeSigned negative n) = n := by
  induction n using Nat.strongRecOn with
  | ind n ih =>
    rcases Nat.lt_or_ge n 0x80 with hlt | hle
    · rw [encodeSigned_of_lt negative hlt]
      cases negative <;> simp [isNegative, magnitude, UInt8.le_iff_toNat_le] <;> omega
    · obtain ⟨hneg, hmag⟩ := ih (n / 0x100) (by omega)
      have hne : encodeSigned negative (n / 0x100) ≠ [] := encodeSigned_ne_nil negative _
      rw [encodeSigned_of_le negative hle, isNegative_cons _ hne, magnitude_cons _ hne, hneg, hmag, UInt8.toNat_ofNat']
      refine ⟨rfl, ?_⟩
      omega

/-- what is written has the value of the number -/
theorem decode_encode (n : Int) : decode (encode n) = n := by
  unfold encode
  split
  · rename_i hzero
    rw [hzero]
    rfl
  · obtain ⟨hneg, hmag⟩ := encodeSigned_spec (n < 0) n.natAbs
    rw [decode, hneg, hmag]
    split <;> rename_i hsign <;> simp at hsign <;> omega

theorem isTrue_ofBool (b : Bool) : isTrue (ofBool b) = b := by
  rw [Bool.eq_iff_iff, isTrue_iff, ofBool, decode_encode]
  cases b <;> decide

/-- what is written for a magnitude below this bound has at most so many bytes after the first -/
theorem length_encodeSigned_le (negative : Bool) {k n : Nat} (h : n < 0x80 * 0x100 ^ k) :
    (encodeSigned negative n).length ≤ k + 1 := by
  induction k generalizing n with
  | zero =>
    rw [encodeSigned_of_lt negative (by simpa using h)]
    simp
  | succ k ih =>
    rcases Nat.lt_or_ge n 0x80 with hlt | hle
    · rw [encodeSigned_of_lt negative hlt]
      simp
    · have hdiv : n / 0x100 < 0x80 * 0x100 ^ k := by
        rw [Nat.pow_succ] at h
        omega
      rw [encodeSigned_of_le negative hle, List.length_cons]
      exact Nat.succ_le_succ (ih hdiv)

theorem length_encode_le {k : Nat} {n : Int} (h : n.natAbs < 0x80 * 0x100 ^ k) : (encode n).length ≤ k + 1 := by
  unfold encode
  split
  · simp
  · exact length_encodeSigned_le _ h

/-! ## Minimal strings -/

/-- what is written for a magnitude other than zero is minimal -/
theorem isMinimal_encodeSigned (negative : Bool) {n : Nat} (h : n ≠ 0) : isMinimal (encodeSigned negative n) := by
  induction n using Nat.strongRecOn with
  | ind n ih =>
    rcases Nat.lt_or_ge n 0x80 with hlt | hle
    · rw [encodeSigned_of_lt negative hlt]
      cases negative <;> simp [isMinimal] <;> omega
    · rw [encodeSigned_of_le negative hle]
      rcases Nat.lt_or_ge (n / 0x100) 0x80 with hlt' | hle'
      · -- the byte at the end holds what is left, or it is there because the one before has no room for the sign
        rw [encodeSigned_of_lt negative hlt']
        cases negative <;> simp [isMinimal, UInt8.le_iff_toNat_le] <;> omega
      · have hrest := ih (n / 0x100) (by omega) (by omega)
        have hne : encodeSigned negative (n / 0x100 / 0x100) ≠ [] := encodeSigned_ne_nil negative _
        rw [encodeSigned_of_le negative hle'] at hrest ⊢
        obtain ⟨d, bs, hcons⟩ := List.exists_cons_of_ne_nil hne
        rw [hcons] at hrest ⊢
        exact hrest

theorem isMinimal_encode (n : Int) : isMinimal (encode n) := by
  unfold encode
  split
  · rfl
  · exact isMinimal_encodeSigned _ (by omega)

/-- a minimal string of more than one byte is there because its magnitude needs a second one -/
theorem le_magnitude_of_isMinimal {b c : UInt8} {bs : Bytes} (h : isMinimal (b :: c :: bs)) :
    0x80 ≤ magnitude (b :: c :: bs) := by
  induction bs generalizing b c with
  | nil =>
    simp [isMinimal, UInt8.le_iff_toNat_le] at h
    simp only [magnitude]
    omega
  | cons d bs ih =>
    have hrest : 0x80 ≤ magnitude (c :: d :: bs) := ih h
    rw [magnitude]
    omega

theorem encodeSigned_singleton (b : UInt8) : encodeSigned (isNegative [b]) (magnitude [b]) = [b] := by
  have hb := b.toNat_lt
  have hmag : magnitude [b] < 0x80 := Nat.mod_lt _ (by decide)
  rw [encodeSigned_of_lt _ hmag, List.cons.injEq, ← UInt8.toNat_inj, UInt8.toNat_ofNat']
  simp only [isNegative, magnitude, UInt8.le_iff_toNat_le, UInt8.reduceToNat, decide_eq_true_eq, and_true]
  split <;> omega

/-- a minimal string is what is written for its sign and its magnitude -/
theorem encodeSigned_of_isMinimal {b : UInt8} {bs : Bytes} (h : isMinimal (b :: bs)) :
    encodeSigned (isNegative (b :: bs)) (magnitude (b :: bs)) = b :: bs := by
  induction bs generalizing b with
  | nil => exact encodeSigned_singleton b
  | cons c bs ih =>
    have hb := b.toNat_lt
    have hrest : encodeSigned (isNegative (c :: bs)) (magnitude (c :: bs)) = c :: bs := by
      rcases bs with _ | ⟨d, bs⟩
      · exact encodeSigned_singleton c
      · exact ih h
    have hdiv : magnitude (b :: c :: bs) / 0x100 = magnitude (c :: bs) := by
      rw [magnitude]
      omega
    have hbyte : UInt8.ofNat (magnitude (b :: c :: bs)) = b := by
      rw [← UInt8.toNat_inj, UInt8.toNat_ofNat', magnitude]
      omega
    rw [encodeSigned_of_le _ (le_magnitude_of_isMinimal h), hdiv, hbyte, isNegative, hrest]

theorem magnitude_ne_zero_of_isMinimal {b : UInt8} {bs : Bytes} (h : isMinimal (b :: bs)) :
    magnitude (b :: bs) ≠ 0 := by
  rcases bs with _ | ⟨c, bs⟩
  · simpa [isMinimal, magnitude] using h
  · have hle := le_magnitude_of_isMinimal h
    omega

theorem encode_decode_of_isMinimal {bs : Bytes} (h : isMinimal bs) : encode (decode bs) = bs := by
  rcases bs with _ | ⟨b, bs⟩
  · rfl
  · have hne : magnitude (b :: bs) ≠ 0 := magnitude_ne_zero_of_isMinimal h
    have hdecode : decode (b :: bs) ≠ 0 := by
      rw [← Int.natAbs_ne_zero, natAbs_decode]
      exact hne
    have hsign : decide (decode (b :: bs) < 0) = isNegative (b :: bs) := by
      unfold decode
      cases isNegative (b :: bs) <;> simp <;> omega
    rw [encode, if_neg hdecode, hsign, natAbs_decode]
    exact encodeSigned_of_isMinimal h

/-- what is written for a value is not longer than any string that has it -/
theorem length_encode_decode_le (bs : Bytes) : (encode (decode bs)).length ≤ bs.length := by
  rcases bs with _ | ⟨b, bs⟩
  · exact Nat.le_refl 0
  · obtain ⟨-, hlt⟩ := toNatLE_cons b bs
    refine length_encode_le ?_
    rw [natAbs_decode]
    exact hlt

/-- the minimal strings are those that are written for their values -/
theorem encode_decode_eq_iff (bs : Bytes) : encode (decode bs) = bs ↔ isMinimal bs := by
  constructor
  · intro h
    rw [← h]
    exact isMinimal_encode _
  · intro h
    exact encode_decode_of_isMinimal h

/-! ## Reading -/

theorem read_lax_eq_ok_iff {bs : Bytes} {limit : Nat} {n : Int} :
    read bs limit false = .ok n ↔ bs.length ≤ limit ∧ decode bs = n := by
  simp only [read, Bool.false_and, Bool.false_eq_true, if_false]
  split <;> simp <;> omega

theorem read_strict_eq_ok_iff {bs : Bytes} {limit : Nat} {n : Int} :
    read bs limit true = .ok n ↔ bs.length ≤ limit ∧ isMinimal bs ∧ decode bs = n := by
  simp only [read, Bool.true_and]
  split
  · simp; omega
  · split <;> simp_all

theorem of_read_eq_ok {bs : Bytes} {limit : Nat} {strict : Bool} {n : Int} (h : read bs limit strict = .ok n) :
    bs.length ≤ limit ∧ decode bs = n := by
  cases strict with
  | false => exact read_lax_eq_ok_iff.1 h
  | true =>
    obtain ⟨hlength, -, hn⟩ := read_strict_eq_ok_iff.1 h
    exact ⟨hlength, hn⟩

theorem natAbs_lt_of_length_le {bs : Bytes} {k : Nat} (h : bs.length ≤ k + 1) :
    (decode bs).natAbs < 0x80 * 0x100 ^ k := by
  rw [natAbs_decode]
  rcases bs with _ | ⟨b, bs⟩
  · exact Nat.mul_pos (by decide) (Nat.pow_pos (by decide))
  · obtain ⟨-, hlt⟩ := toNatLE_cons b bs
    calc magnitude (b :: bs)
      _ < 0x80 * 0x100 ^ bs.length := hlt
      _ ≤ 0x80 * 0x100 ^ k := Nat.mul_le_mul_left _ (Nat.pow_le_pow_right (by decide) (Nat.le_of_succ_le_succ h))

theorem read_encode {n : Int} (h : n.natAbs < 2 ^ 31) (strict : Bool) :
    read (encode n) operandLimit strict = .ok n := by
  have hlen : (encode n).length ≤ operandLimit := length_encode_le (k := 3) h
  cases strict with
  | false => exact read_lax_eq_ok_iff.2 ⟨hlen, decode_encode n⟩
  | true => exact read_strict_eq_ok_iff.2 ⟨hlen, isMinimal_encode n, decode_encode n⟩

end Number

/-- **Numbers are read as they are written.** With minimal forms asked for, a string is read as the number that it is
written for, and no other string is; otherwise it is read as its value in signed magnitude. What is refused is too long
or not minimal, and is refused as an overflow. -/
theorem numbers_read_as_written :
    (∀ n : Int, n.natAbs < 2 ^ 63 → (Number.encode n).length ≤ 8) ∧
    (∀ n : Int, n.natAbs < 2 ^ 55 → Number.read (Number.encode n) 7 true = .ok n) ∧
    Number.signedMagnitude [] = 0 ∧
    ∀ limit ≤ 7, ∀ bs : Bytes,
      (∀ n, Number.read bs limit true = .ok n ↔ bs.length ≤ limit ∧ bs = Number.encode n) ∧
      (∀ n, Number.read bs limit false = .ok n ↔ bs.length ≤ limit ∧ n = Number.signedMagnitude bs) ∧
      (∀ n, Number.read bs limit false = .ok n →
        (Number.encode n).length ≤ bs.length ∧
          (Number.encode n = bs ↔ ∃ m, Number.read bs limit true = .ok m)) ∧
      (∀ strict n, Number.read bs limit strict = .ok n → n.natAbs < 2 ^ 55) ∧
      ∀ strict failure, Number.read bs limit strict = .error failure → failure.kind = .numericOverflow := by
  refine ⟨?_, ?_, rfl, ?_⟩
  · intro n hn
    exact Number.length_encode_le hn
  · intro n hn
    rw [Number.read_strict_eq_ok_iff]
    exact ⟨Number.length_encode_le hn, Number.isMinimal_encode n, Number.decode_encode n⟩
  · intro limit hlimit bs
    refine ⟨?_, ?_, ?_, ?_, ?_⟩
    · intro n
      rw [Number.read_strict_eq_ok_iff]
      constructor
      · rintro ⟨hlength, hminimal, rfl⟩
        exact ⟨hlength, (Number.encode_decode_of_isMinimal hminimal).symm⟩
      · rintro ⟨hlength, rfl⟩
        exact ⟨hlength, Number.isMinimal_encode n, Number.decode_encode n⟩
    · intro n
      rw [Number.read_lax_eq_ok_iff, Number.decode_eq_signedMagnitude, eq_comm (a := n)]
    · intro n hread
      obtain ⟨hlength, rfl⟩ := Number.read_lax_eq_ok_iff.1 hread
      refine ⟨Number.length_encode_decode_le bs, ?_⟩
      rw [Number.encode_decode_eq_iff]
      constructor
      · intro hminimal
        exact ⟨_, Number.read_strict_eq_ok_iff.2 ⟨hlength, hminimal, rfl⟩⟩
      · rintro ⟨m, hm⟩
        exact (Number.read_strict_eq_ok_iff.1 hm).2.1
    · intro strict n hread
      obtain ⟨hlength, rfl⟩ : bs.length ≤ limit ∧ Number.decode bs = n := by
        cases strict with
        | false => exact Number.read_lax_eq_ok_iff.1 hread
        | true =>
          obtain ⟨hlength, -, hn⟩ := Number.read_strict_eq_ok_iff.1 hread
          exact ⟨hlength, hn⟩
      exact Number.natAbs_lt_of_length_le (k := 6) (Nat.le_trans hlength hlimit)
    · intro strict failure hread
      exact List.mem_singleton.1 (Number.overflows_read bs limit strict failure hread)

/-- the number -255, whose sign needs a byte, and a longer form of -127, whose sign does not -/
theorem numbers_read_as_written_sign :
    (Number.encode (-255)).length ≤ 8 ∧ Number.read (Number.encode (-255)) 7 true = .ok (-255) ∧
      Number.read [0xff, 0x80] 4 true = .ok (-255) ∧ Number.read [0x7f, 0x80] 4 false = .ok (-127) ∧
      (Number.encode (-127)).length ≤ 2 ∧ ¬ ∃ m, Number.read [0x7f, 0x80] 4 true = .ok m := by
  obtain ⟨hlength, hback, -, hread⟩ := numbers_read_as_written
  obtain ⟨hstrict, -⟩ := hread 4 (by decide) [0xff, 0x80]
  obtain ⟨-, hlax, hlong, -⟩ := hread 4 (by decide) [0x7f, 0x80]
  have hvalue : Number.read [0x7f, 0x80] 4 false = .ok (-127) := (hlax (-127)).2 (by decide)
  obtain ⟨hle, hsame⟩ := hlong _ hvalue
  exact ⟨hlength _ (by decide), hback _ (by decide), (hstrict _).2 (by decide +kernel), hvalue, hle,
    fun hm => absurd (hsame.2 hm) (by decide +kernel)⟩

end BitcoinScript
