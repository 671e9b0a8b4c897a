/-
Hexadecimal text of byte strings: two digits a byte, written in lower case and read in either case.

A text is refused for an odd length before its digits are looked at, and the length is that of its UTF-8 form, so a
lone non-ASCII character may count as an even number of digits. The digits of a byte string are read as that byte
string, each of them in either case (`decode_of_toLower`).
-/
import BitcoinScript.Bytes

namespace BitcoinScript.Hex

/-- why a text is not the hexadecimal form of a byte string -/
inductive Error where
  | oddLength
  | invalidDigit
  deriving DecidableEq

/-- the wording of an error -/
def Error.message : Error → String
  | .oddLength => "odd length, failed to create bytes from hex"
  | .invalidDigit => "invalid char, failed to create bytes from hex"

/-- the lower case digit of a number below 16 -/
def digit (n : Nat) : Char :=
  if n < 10 then Char.ofNat (48 + n) else Char.ofNat (87 + n)

/-- the value of a digit of either case -/
def value? (c : Char) : Option Nat :=
  if '0' ≤ c ∧ c ≤ '9' then some (c.toNat - 48)
  else if 'a' ≤ c ∧ c ≤ 'f' then some (c.toNat - 87)
  else if 'A' ≤ c ∧ c ≤ 'F' then some (c.toNat - 55)
  else none

/-- the two digits of every byte -/
def digits (bs : Bytes) : List Char :=
  bs.flatMap fun b => [digit (b.toNat / 16), digit (b.toNat % 16)]

/-- the hexadecimal text of a byte string -/
def encode (bs : Bytes) : String :=
  String.ofList (digits bs)

/-- reads digits two by two -/
def ofDigits? : List Char → Option Bytes
  | [] => some []
  | [_] => none
  | high :: low :: rest =>
    match value? high, value? low with
    | some h, some l => (ofDigits? rest).map (UInt8.ofNat (16 * h + l) :: ·)
    | _, _ => none

/-- the byte string of a hexadecimal text -/
def decode (text : String) : Except Error Bytes :=
  if text.utf8ByteSize % 2 = 1 then .error .oddLength
  else
    match ofDigits? text.toList with
    | some bs => .ok bs
    | none => .error .invalidDigit

/-- the text of a byte string inside a message, where the empty string has a name of its own -/
def shown (bs : Bytes) : String :=
  if bs.isEmpty then "<empty>" else encode bs

theorem toNat_digit {n : Nat} (hn : n < 16) : (digit n).toNat = if n < 10 then 48 + n else 87 + n := by
  revert n
  decide

theorem toNat_toLower (c : Char) :
    c.toLower.toNat = if 65 ≤ c.toNat ∧ c.toNat ≤ 90 then c.toNat + 32 else c.toNat := by
  have hrange : (c.val ≥ 'A'.val ∧ c.val ≤ 'Z'.val) ↔ 65 ≤ c.toNat ∧ c.toNat ≤ 90 := by
    rw [ge_iff_le, UInt32.le_iff_toNat_le, UInt32.le_iff_toNat_le]
    rfl
  unfold Char.toLower
  split
  · rename_i h
    rw [if_pos (hrange.1 h)]
    have hlt := (hrange.1 h).2
    show (c.val + 32).toNat = _
    rw [UInt32.toNat_add]
    show (c.toNat + 32) % _ = _
    omega
  · rename_i h
    rw [if_neg (fun hr => h (hrange.2 hr))]

theorem toNat_of_toLower {c : Char} {n : Nat} (hn : n < 16) (h : c.toLower = digit n) :
    c.toNat = 48 + n ∧ n < 10 ∨ (c.toNat = 55 + n ∨ c.toNat = 87 + n) ∧ 10 ≤ n := by
  have hcode := congrArg Char.toNat h
  rw [toNat_toLower, toNat_digit hn] at hcode
  split at hcode <;> split at hcode <;> omega

theorem value?_of_toLower {c : Char} {n : Nat} (hn : n < 16) (h : c.toLower = digit n) : value? c = some n := by
  have hle (a b : Char) : a ≤ b ↔ a.toNat ≤ b.toNat := by
    rw [Char.le_def, UInt32.le_iff_toNat_le]
    rfl
  have hcode := toNat_of_toLower hn h
  simp only [value?, hle]
  show (if 48 ≤ c.toNat ∧ c.toNat ≤ 57 then _ else if 97 ≤ c.toNat ∧ c.toNat ≤ 102 then _
    else if 65 ≤ c.toNat ∧ c.toNat ≤ 70 then _ else _) = _
  grind

theorem ofDigits?_of_toLower {hex : List Char} {bs : Bytes} (h : hex.map Char.toLower = digits bs) :
    ofDigits? hex = some bs := by
  induction bs generalizing hex with
  | nil =>
    rw [List.map_eq_nil_iff.1 h]
    rfl
  | cons b bs ih =>
    obtain ⟨high, hex, rfl, hhigh, h⟩ := List.map_eq_cons_iff.1 h
    obtain ⟨low, hex, rfl, hlow, h⟩ := List.map_eq_cons_iff.1 h
    have hb := b.toNat_lt
    have hvalue : 16 * (b.toNat / 16) + b.toNat % 16 = b.toNat := Nat.div_add_mod _ _
    rw [ofDigits?, value?_of_toLower (by omega) hhigh, value?_of_toLower (by omega) hlow, ih h]
    simp only [Option.map_some, hvalue, UInt8.ofNat_toNat]

theorem utf8ByteSize_ofList {cs : List Char} (h : ∀ c ∈ cs, c.toNat < 128) :
    (String.ofList cs).utf8ByteSize = cs.length := by
  induction cs with
  | nil => rfl
  | cons c cs ih =>
    rw [String.ofList_cons, String.utf8ByteSize_append, String.utf8ByteSize_singleton, List.length_cons,
      ih fun d hd => h d (List.mem_cons_of_mem c hd), Nat.add_comm]
    congr 1
    rw [Char.utf8Size_eq_one_iff, UInt32.le_iff_toNat_le]
    exact Nat.le_of_lt_succ (h c List.mem_cons_self)

theorem length_digits (bs : Bytes) : (digits bs).length = 2 * bs.length := by
  induction bs with
  | nil => rfl
  | cons b bs ih =>
    rw [digits, List.flatMap_cons, List.length_append, ← digits, ih, List.length_cons]
    simp only [List.length_cons, List.length_nil]
    omega

theorem exists_of_mem_digits {c : Char} {bs : Bytes} (h : c ∈ digits bs) : ∃ n < 16, c = digit n := by
  obtain ⟨b, -, hc⟩ := List.mem_flatMap.1 h
  have hb := b.toNat_lt
  rcases List.mem_cons.1 hc with rfl | hc
  · exact ⟨b.toNat / 16, by omega, rfl⟩
  · exact ⟨b.toNat % 16, by omega, List.mem_singleton.1 hc⟩

theorem toNat_of_mem {hex : List Char} {bs : Bytes} (h : hex.map Char.toLower = digits bs) {c : Char}
    (hc : c ∈ hex) : 48 ≤ c.toNat ∧ c.toNat ≤ 102 := by
  have hmem : c.toLower ∈ digits bs := h ▸ List.mem_map_of_mem hc
  obtain ⟨n, hn, hdigit⟩ := exists_of_mem_digits hmem
  have hcode := toNat_of_toLower hn hdigit
  omega

/-- digits are read in either case -/
theorem decode_of_toLower {hex : List Char} {bs : Bytes} (h : hex.map Char.toLower = digits bs) :
    decode (String.ofList hex) = .ok bs := by
  have hascii : ∀ c ∈ hex, c.toNat < 128 := by
    intro c hc
    have hcode := toNat_of_mem h hc
    omega
  have hlen : hex.length = 2 * bs.length := by
    rw [← length_digits, ← h, List.length_map]
  have heven : ¬ (String.ofList hex).utf8ByteSize % 2 = 1 := by
    rw [utf8ByteSize_ofList hascii]
    omega
  rw [decode, if_neg heven, String.toList_ofList, ofDigits?_of_toLower h]

end BitcoinScript.Hex
