/-
The grammar of scripts. A script is a row of operations, and each of them is written in one of three ways: as an opcode
that is the length of the data to push, followed by these; as one that is followed by that length in one, two or four
bytes and then by the data; and, if it is no push, as its opcode alone. How a script is read plays no part in it.

Results:
- `scan_written`, `scan_cut`: the scan takes a whole operation off the front, and it knows a push that is cut.
- `WrittenAs.unique`: the bytes of an operation are those of no other.
- `written_or_cut`: nothing else can stand at the front of a script.
-/
import BitcoinScript.Script.Program

namespace BitcoinScript

/-! ## The grammar -/

/-- the opcodes of the pushes that state their length, each with the number of bytes it is stated in -/
def countedPushes : List (UInt8 × Nat) :=
  [(0x4c, 1), (0x4d, 2), (0x4e, 4)]

/-- an operation, and the bytes that it may be written in -/
inductive Operation.WrittenAs : Operation → Bytes → Prop where
  /-- the opcode is the length -/
  | direct (data : Bytes) (hlength : data.length ≤ 0x4b) :
      WrittenAs (.push data) (UInt8.ofNat data.length :: data)
  /-- the opcode is followed by the length, in the shortest form or not -/
  | counted (byte : UInt8) (width : Nat) (data : Bytes) (hform : (byte, width) ∈ countedPushes)
      (hlength : data.length < Bytes.capacity width) :
      WrittenAs (.push data) (byte :: Bytes.ofNatLE width data.length ++ data)
  /-- the opcode stands alone -/
  | code (op : Opcode) (hop : 0x4e < op.byte) : WrittenAs (.code op) [op.byte]

/-- what begins as a push and ends before its length bytes or its data do -/
inductive CutPush : Bytes → Prop where
  | direct (length : Nat) (rest : Bytes) (hlength : length ≤ 0x4b) (hcut : rest.length < length) :
      CutPush (UInt8.ofNat length :: rest)
  | length (byte : UInt8) (width : Nat) (rest : Bytes) (hform : (byte, width) ∈ countedPushes)
      (hcut : rest.length < width) : CutPush (byte :: rest)
  | data (byte : UInt8) (width length : Nat) (rest : Bytes) (hform : (byte, width) ∈ countedPushes)
      (hlength : length < Bytes.capacity width) (hcut : rest.length < length) :
      CutPush (byte :: Bytes.ofNatLE width length ++ rest)

theorem Operation.WrittenAs.raw_ne_nil {operation : Operation} {raw : Bytes} (h : operation.WrittenAs raw) :
    raw ≠ [] := by
  cases h <;> simp

/-! ## The forms of the opcodes -/

namespace Opcode

theorem pushForm?_direct {length : Nat} (h : length ≤ 0x4b) :
    pushForm? ⟨UInt8.ofNat length⟩ = some (.direct length) := by
  have hnat : (UInt8.ofNat length).toNat = length := UInt8.toNat_ofNat_of_lt' (Nat.lt_of_le_of_lt h (by decide))
  have hle : UInt8.ofNat length ≤ 0x4b := by
    rw [UInt8.le_iff_toNat_le, hnat]
    exact h
  simp only [pushForm?, hle, if_true, hnat]

theorem pushForm?_counted {byte : UInt8} {width : Nat} (h : (byte, width) ∈ countedPushes) :
    pushForm? ⟨byte⟩ = some (.counted width) := by
  simp only [countedPushes, List.mem_cons, Prod.mk.injEq, List.not_mem_nil, or_false] at h
  rcases h with ⟨rfl, rfl⟩ | ⟨rfl, rfl⟩ | ⟨rfl, rfl⟩ <;> rfl

theorem pushForm?_alone {op : Opcode} (h : 0x4e < op.byte) : op.pushForm? = none := by
  have hdirect : ¬ op.byte ≤ 0x4b := fun hle => absurd (UInt8.lt_of_lt_of_le h hle) (by decide)
  have hne : ∀ byte : UInt8, byte ≤ 0x4e → op.byte ≠ byte := by
    rintro byte hle rfl
    exact absurd (UInt8.lt_of_lt_of_le h hle) (UInt8.lt_irrefl _)
  simp only [pushForm?, hdirect, hne 0x4c (by decide), hne 0x4d (by decide), hne 0x4e (by decide), if_false]

theorem form_cases (op : Opcode) :
    (∃ length ≤ 0x4b, op.byte = UInt8.ofNat length) ∨ (∃ width, (op.byte, width) ∈ countedPushes) ∨
      0x4e < op.byte := by
  by_cases hdirect : op.byte ≤ 0x4b
  · exact .inl ⟨op.byte.toNat, hdirect, UInt8.ofNat_toNat.symm⟩
  · by_cases hcounted : op.byte ≤ 0x4e
    · have hbyte : op.byte = 0x4c ∨ op.byte = 0x4d ∨ op.byte = 0x4e := by
        rw [UInt8.le_iff_toNat_le] at hdirect hcounted
        simp only [← UInt8.toNat_inj]
        simp only [UInt8.reduceToNat] at *
        omega
      rcases hbyte with h | h | h <;> rw [h]
      · exact .inr (.inl ⟨1, by simp [countedPushes]⟩)
      · exact .inr (.inl ⟨2, by simp [countedPushes]⟩)
      · exact .inr (.inl ⟨4, by simp [countedPushes]⟩)
    · exact .inr (.inr (UInt8.not_le.1 hcounted))

end Opcode

/-! ## The scan -/

namespace Token

/-- the operation of a token that is not cut -/
def whole? : Token → Option Operation
  | .single op => some (.code op)
  | .push _ _ data => some (.push data)
  | .cutLength _ | .cutData _ => none

theorem operation_of_cut {token : Token} (h : token.whole? = none) (offset : Nat) :
    token.operation offset = .error (.openPush offset) := by
  cases token with
  | single | push => cases h
  | cutLength | cutData => rfl

theorem operation_of_code {token : Token} {op : Opcode} (h : token.whole? = some (.code op)) (offset : Nat) :
    token.operation offset = .ok (.code op) := by
  cases token with
  | single =>
    cases h
    rfl
  | push | cutLength | cutData => cases h

theorem operation_of_push {token : Token} {data : Bytes} (h : token.whole? = some (.push data)) (offset : Nat) :
    token.operation offset =
      if itemLimit < data.length then .error (.longPush offset data.length) else .ok (.push data) := by
  cases token with
  | push =>
    cases h
    rfl
  | single | cutLength | cutData => cases h

theorem scan_cons {byte : UInt8} {rest later : Bytes} {token : Token} (h : next ⟨byte⟩ rest = (token, later)) :
    scan (byte :: rest) = token :: scan later := by
  rw [scan, h]

/-- the scan takes a whole operation off the front, whatever follows -/
theorem scan_written {operation : Operation} {raw : Bytes} (h : operation.WrittenAs raw) :
    ∃ token : Token, token.whole? = some operation ∧ token.raw = raw ∧
      ∀ rest, scan (raw ++ rest) = token :: scan rest := by
  cases h with
  | direct data hlength =>
    refine ⟨.push ⟨UInt8.ofNat data.length⟩ [] data, rfl, rfl, ?_⟩
    intro rest
    rw [List.cons_append]
    refine scan_cons ?_
    simp only [next, Opcode.pushForm?_direct hlength, Bytes.split?_append rfl]
  | counted byte width data hform hlength =>
    refine ⟨.push ⟨byte⟩ (Bytes.ofNatLE width data.length) data, rfl, rfl, ?_⟩
    intro rest
    rw [List.append_assoc, List.cons_append]
    refine scan_cons ?_
    simp only [next, Opcode.pushForm?_counted hform, Bytes.split?_append (Bytes.length_ofNatLE _ _),
      Bytes.toNatLE_ofNatLE hlength, Bytes.split?_append rfl]
  | code op hop =>
    refine ⟨.single op, rfl, rfl, ?_⟩
    intro rest
    rw [List.singleton_append]
    refine scan_cons ?_
    simp only [next, Opcode.pushForm?_alone hop]

/-- the scan knows a push that is cut -/
theorem scan_cut {bs : Bytes} (h : CutPush bs) :
    ∃ (token : Token) (tokens : List Token), token.whole? = none ∧ scan bs = token :: tokens := by
  cases h with
  | direct length rest hlength hcut =>
    refine ⟨.cutData ⟨UInt8.ofNat length⟩, scan [], rfl, scan_cons ?_⟩
    simp only [next, Opcode.pushForm?_direct hlength, Bytes.split?_eq_none hcut]
  | length byte width rest hform hcut =>
    refine ⟨.cutLength ⟨byte⟩, scan [], rfl, scan_cons ?_⟩
    simp only [next, Opcode.pushForm?_counted hform, Bytes.split?_eq_none hcut]
  | data byte width length rest hform hlength hcut =>
    rw [List.cons_append]
    refine ⟨.cutData ⟨byte⟩, scan [], rfl, scan_cons ?_⟩
    simp only [next, Opcode.pushForm?_counted hform, Bytes.split?_append (Bytes.length_ofNatLE _ _),
      Bytes.toNatLE_ofNatLE hlength, Bytes.split?_eq_none hcut]

end Token

/-- the bytes of an operation are those of no other -/
theorem Operation.WrittenAs.unique {a b : Operation} {raw : Bytes} (ha : a.WrittenAs raw) (hb : b.WrittenAs raw) :
    a = b := by
  obtain ⟨token, htoken, -, hscan⟩ := Token.scan_written ha
  obtain ⟨token', htoken', -, hscan'⟩ := Token.scan_written hb
  have heq : token = token' := (List.cons.inj ((hscan []).symm.trans (hscan' []))).1
  rw [heq] at htoken
  exact Option.some.inj (htoken.symm.trans htoken')

/-- at the front of what is not empty stands a whole operation or a cut push -/
theorem written_or_cut {bs : Bytes} (h : bs ≠ []) :
    CutPush bs ∨ ∃ operation raw rest, Operation.WrittenAs operation raw ∧ bs = raw ++ rest := by
  obtain ⟨byte, rest, rfl⟩ := List.exists_cons_of_ne_nil h
  rcases Opcode.form_cases ⟨byte⟩ with ⟨length, hlength, rfl⟩ | ⟨width, hform⟩ | halone
  · rcases Nat.lt_or_ge rest.length length with hcut | hle
    · exact .inl (.direct length rest hlength hcut)
    · have htake : (rest.take length).length = length := List.length_take_of_le hle
      have hraw := Operation.WrittenAs.direct (rest.take length) (htake.symm ▸ hlength)
      rw [htake] at hraw
      refine .inr ⟨_, _, rest.drop length, hraw, ?_⟩
      rw [List.cons_append, List.take_append_drop]
  · rcases Nat.lt_or_ge rest.length width with hcut | hle
    · exact .inl (.length byte width rest hform hcut)
    · obtain ⟨lengthBytes, later, rfl, hwidth⟩ : ∃ lengthBytes later, rest = lengthBytes ++ later ∧
          lengthBytes.length = width :=
        ⟨rest.take width, rest.drop width, (List.take_append_drop width rest).symm, List.length_take_of_le hle⟩
      -- the length bytes are those of their number, and so of the length of the data
      have hnumber : Bytes.toNatLE lengthBytes < Bytes.capacity width := hwidth ▸ Bytes.toNatLE_lt lengthBytes
      have hbytes : Bytes.ofNatLE width (Bytes.toNatLE lengthBytes) = lengthBytes :=
        hwidth ▸ Bytes.ofNatLE_toNatLE lengthBytes
      rcases Nat.lt_or_ge later.length (Bytes.toNatLE lengthBytes) with hcut | hle'
      · have hdata := CutPush.data byte width _ later hform hnumber hcut
        rw [hbytes] at hdata
        exact .inl hdata
      · have htake : (later.take (Bytes.toNatLE lengthBytes)).length = Bytes.toNatLE lengthBytes :=
          List.length_take_of_le hle'
        have hraw := Operation.WrittenAs.counted byte width (later.take (Bytes.toNatLE lengthBytes)) hform
          (htake.symm ▸ hnumber)
        rw [htake, hbytes] at hraw
        refine .inr ⟨_, _, later.drop (Bytes.toNatLE lengthBytes), hraw, ?_⟩
        rw [List.append_assoc, List.take_append_drop, List.cons_append]
  · exact .inr ⟨.code ⟨byte⟩, [byte], rest, .code ⟨byte⟩ halone, rfl⟩

end BitcoinScript
