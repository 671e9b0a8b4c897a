/-
Readers that are exact. What a reader takes from the front of a byte string is the written form of what it gives, and
every written form is read, whatever follows it. Both together are one equivalence, and from it follows that no written
form begins with another one. It is shown for one reader after another, up to the parts of a transaction.

Results:
- `exact_compactSize`: counts and lengths below `UInt64.size`, in their shortest form only.
- `Exact.many`, `Exact.counted`: lists of what is read exactly.
- `exact_input`, `exact_output`, `exact_witness`: the parts of a transaction.
-/
import BitcoinScript.Transaction.Reader
import BitcoinScript.Transaction.Writer

namespace BitcoinScript.Transaction.Reader

variable {α β : Type}

/-- the reader gives what is valid, and takes its written form -/
def Exact (reader : Reader α) (Valid : α → Prop) (write : α → Bytes) : Prop :=
  ∀ bs x rest, reader bs = .ok (x, rest) ↔ Valid x ∧ bs = write x ++ rest

/-! ## Readers in a row -/

theorem bind_eq_ok {reader : Reader α} {next : α → Reader β} {bs rest : Bytes} {y : β} :
    (reader >>= next) bs = .ok (y, rest) ↔
      ∃ x middle, reader bs = .ok (x, middle) ∧ next x middle = .ok (y, rest) := by
  show (reader bs >>= fun p => next p.1 p.2) = _ ↔ _
  cases h : reader bs with
  | error e =>
    constructor
    · nofun
    · rintro ⟨x, middle, hx, -⟩
      cases hx
  | ok p =>
    constructor
    · intro hnext
      exact ⟨p.1, p.2, rfl, hnext⟩
    · rintro ⟨x, middle, hx, hnext⟩
      cases hx
      exact hnext

theorem pure_eq_ok {x y : α} {bs rest : Bytes} : (pure x : Reader α) bs = .ok (y, rest) ↔ x = y ∧ bs = rest := by
  show Except.ok (x, bs) = Except.ok (y, rest) ↔ _
  rw [Except.ok.injEq, Prod.mk.injEq]

/-! ## Numbers -/

theorem exact_take (n : Nat) : Exact (take n) (·.length = n) id := by
  intro bs front rest
  have htake : take n bs = .ok (front, rest) ↔ Bytes.split? n bs = some (front, rest) := by
    rw [take]
    cases Bytes.split? n bs with
    | none => exact iff_of_false nofun nofun
    | some p => simp [Prod.ext_iff]
  rw [htake, Bytes.split?_eq_some_iff]
  exact And.comm

theorem exact_word (width : Nat) : Exact (word width) (· < Bytes.capacity width) (Bytes.ofNatLE width) := by
  intro bs n rest
  simp only [word, bind_eq_ok, exact_take _ _ _ _, pure_eq_ok]
  constructor
  · rintro ⟨front, middle, ⟨rfl, rfl⟩, rfl, rfl⟩
    refine ⟨Bytes.toNatLE_lt front, ?_⟩
    rw [Bytes.ofNatLE_toNatLE]
    rfl
  · rintro ⟨hn, rfl⟩
    exact ⟨_, rest, ⟨Bytes.length_ofNatLE _ _, rfl⟩, Bytes.toNatLE_ofNatLE hn, rfl⟩

/-- a number that is not below `least`, for which there would be a shorter form -/
theorem exact_long (width least : Nat) :
    Exact (do
        let n ← word width
        if n < least then throw .longCount
        return n)
      (fun n => least ≤ n ∧ n < Bytes.capacity width) (Bytes.ofNatLE width) := by
  intro bs n rest
  simp only [bind_eq_ok, exact_word _ _ _ _]
  constructor
  · rintro ⟨m, middle, ⟨hm, rfl⟩, hok⟩
    split at hok
    · cases hok
    · obtain ⟨rfl, rfl⟩ := pure_eq_ok.1 hok
      exact ⟨⟨Nat.not_lt.1 ‹_›, hm⟩, rfl⟩
  · rintro ⟨⟨hle, hn⟩, rfl⟩
    refine ⟨n, rest, ⟨hn, rfl⟩, ?_⟩
    rw [if_neg (Nat.not_lt.2 hle)]
    rfl

/-- counts and lengths are read in their shortest form -/
theorem exact_compactSize : Exact compactSize (· < UInt64.size) CompactSize.encode := by
  intro bs n rest
  simp only [compactSize, bind_eq_ok, exact_word _ _ _ _]
  have hone : Bytes.capacity 1 = 0x100 := rfl
  have htwo : Bytes.capacity 2 = 0x10000 := rfl
  have hfour : Bytes.capacity 4 = 0x100000000 := rfl
  have height : Bytes.capacity 8 = UInt64.size := rfl
  have hsize : UInt64.size = 0x10000000000000000 := rfl
  constructor
  · rintro ⟨first, middle, ⟨hfirst, rfl⟩, hok⟩
    have hcases : first < 0xfd ∨ first = 0xfd ∨ first = 0xfe ∨ first = 0xff := by omega
    rcases hcases with hlt | rfl | rfl | rfl
    · rw [if_pos hlt] at hok
      obtain ⟨rfl, rfl⟩ := pure_eq_ok.1 hok
      refine ⟨by omega, ?_⟩
      rw [CompactSize.encode, if_pos hlt]
    · obtain ⟨⟨hle, hlt⟩, rfl⟩ := (exact_long 2 0xfd _ _ _).1 hok
      refine ⟨by omega, ?_⟩
      rw [CompactSize.encode, if_neg (by omega), if_pos (by omega)]
      rfl
    · obtain ⟨⟨hle, hlt⟩, rfl⟩ := (exact_long 4 0x10000 _ _ _).1 hok
      refine ⟨by omega, ?_⟩
      rw [CompactSize.encode, if_neg (by omega), if_neg (by omega), if_pos (by omega)]
      rfl
    · obtain ⟨⟨hle, hlt⟩, rfl⟩ := (exact_long 8 0x100000000 _ _ _).1 hok
      refine ⟨by omega, ?_⟩
      rw [CompactSize.encode, if_neg (by omega), if_neg (by omega), if_neg (by omega)]
      rfl
  · rintro ⟨hn, rfl⟩
    unfold CompactSize.encode
    split
    · rename_i hlt
      refine ⟨n, rest, ⟨by omega, rfl⟩, ?_⟩
      rw [if_pos hlt]
      rfl
    · split
      · exact ⟨0xfd, _, ⟨by decide, rfl⟩, (exact_long 2 0xfd _ _ _).2 ⟨⟨by omega, by omega⟩, rfl⟩⟩
      · split
        · exact ⟨0xfe, _, ⟨by decide, rfl⟩, (exact_long 4 0x10000 _ _ _).2 ⟨⟨by omega, by omega⟩, rfl⟩⟩
        · exact ⟨0xff, _, ⟨by decide, rfl⟩, (exact_long 8 0x100000000 _ _ _).2 ⟨⟨by omega, by omega⟩, rfl⟩⟩

/-! ## Lists -/

theorem exact_lengthPrefixed : Exact lengthPrefixed (·.length < UInt64.size) CompactSize.lengthPrefixed := by
  intro bs item rest
  simp only [lengthPrefixed, bind_eq_ok, exact_compactSize _ _ _, exact_take _ _ _ _]
  constructor
  · rintro ⟨n, middle, ⟨hn, rfl⟩, rfl, rfl⟩
    refine ⟨hn, ?_⟩
    rw [CompactSize.lengthPrefixed, List.append_assoc]
    rfl
  · rintro ⟨hlen, rfl⟩
    refine ⟨item.length, item ++ rest, ⟨hlen, ?_⟩, rfl, rfl⟩
    rw [CompactSize.lengthPrefixed, List.append_assoc]

namespace Exact

variable {reader : Reader α} {Valid : α → Prop} {write : α → Bytes}

theorem many (h : Exact reader Valid write) (n : Nat) :
    Exact (many reader n) (fun xs => xs.length = n ∧ ∀ x ∈ xs, Valid x) (·.flatMap write) := by
  induction n with
  | zero =>
    intro bs xs rest
    rw [Reader.many, pure_eq_ok]
    constructor
    · rintro ⟨rfl, rfl⟩
      exact ⟨⟨rfl, nofun⟩, rfl⟩
    · rintro ⟨⟨hlen, -⟩, rfl⟩
      rw [List.length_eq_zero_iff.1 hlen]
      exact ⟨rfl, rfl⟩
  | succ n ih =>
    intro bs xs rest
    simp only [Reader.many, bind_eq_ok, h _ _ _, ih _ _ _, pure_eq_ok]
    constructor
    · rintro ⟨x, middle, ⟨hx, rfl⟩, xs, later, ⟨⟨rfl, hxs⟩, rfl⟩, rfl, rfl⟩
      refine ⟨⟨rfl, ?_⟩, ?_⟩
      · intro y hy
        rcases List.mem_cons.1 hy with rfl | hy
        · exact hx
        · exact hxs y hy
      · rw [List.flatMap_cons, List.append_assoc]
    · rintro ⟨⟨hlen, hxs⟩, rfl⟩
      obtain ⟨x, xs, rfl⟩ := List.exists_cons_of_length_eq_add_one hlen
      refine ⟨x, xs.flatMap write ++ rest, ⟨hxs x List.mem_cons_self, ?_⟩, xs, rest, ⟨⟨?_, ?_⟩, rfl⟩, rfl, rfl⟩
      · rw [List.flatMap_cons, List.append_assoc]
      · exact Nat.succ.inj hlen
      · intro y hy
        exact hxs y (List.mem_cons_of_mem x hy)

theorem counted (h : Exact reader Valid write) :
    Exact (counted reader) (fun xs => xs.length < UInt64.size ∧ ∀ x ∈ xs, Valid x) (CompactSize.counted write) := by
  intro bs xs rest
  simp only [Reader.counted, bind_eq_ok, exact_compactSize _ _ _, h.many _ _ _ _]
  constructor
  · rintro ⟨n, middle, ⟨hn, rfl⟩, ⟨rfl, hxs⟩, rfl⟩
    refine ⟨⟨hn, hxs⟩, ?_⟩
    rw [CompactSize.counted, List.append_assoc]
  · rintro ⟨⟨hlen, hxs⟩, rfl⟩
    refine ⟨xs.length, xs.flatMap write ++ rest, ⟨hlen, ?_⟩, ⟨rfl, hxs⟩, rfl⟩
    rw [CompactSize.counted, List.append_assoc]

/-- no written form begins with another one -/
theorem inj (h : Exact reader Valid write) {x y : α} (hx : Valid x) (hy : Valid y) {rest rest' : Bytes}
    (heq : write x ++ rest = write y ++ rest') : x = y ∧ rest = rest' := by
  have hread : reader (write x ++ rest) = .ok (x, rest) := (h _ x rest).2 ⟨hx, rfl⟩
  rw [heq, (h _ y rest').2 ⟨hy, rfl⟩] at hread
  cases hread
  exact ⟨rfl, rfl⟩

end Exact

/-! ## The parts of a transaction -/

theorem exact_txid : Exact txid (fun _ => True) TxId.bytes := by
  intro bs id rest
  rw [txid]
  split
  · rename_i front rest' hsplit
    obtain ⟨rfl, hlen⟩ := Bytes.split?_eq_some_iff.1 hsplit
    constructor
    · intro hok
      cases hok
      exact ⟨trivial, rfl⟩
    · rintro ⟨-, heq⟩
      obtain ⟨rfl, rfl⟩ := List.append_inj heq (hlen.trans id.length_bytes.symm)
      rfl
  · rename_i hsplit
    refine iff_of_false nofun ?_
    rintro ⟨-, rfl⟩
    cases hsplit.symm.trans (Bytes.split?_append id.length_bytes rest)

theorem exact_output : Exact output (·.script.length < UInt64.size) Output.encode := by
  intro bs output rest
  simp only [Reader.output, bind_eq_ok, exact_word _ _ _ _, exact_lengthPrefixed _ _ _, pure_eq_ok]
  constructor
  · rintro ⟨value, middle, ⟨hvalue, rfl⟩, script, later, ⟨hscript, rfl⟩, rfl, rfl⟩
    refine ⟨hscript, ?_⟩
    rw [Output.encode, UInt64.toNat_ofNat_of_lt' hvalue, List.append_assoc]
  · rintro ⟨hscript, rfl⟩
    refine ⟨output.value.toNat, _, ⟨output.value.toNat_lt, ?_⟩, output.script, rest, ⟨hscript, rfl⟩, ?_, rfl⟩
    · rw [Output.encode, List.append_assoc]
    · rw [UInt64.ofNat_toNat]

/-- an input is read without its witness -/
theorem exact_input :
    Exact input (fun input => input.script.length < UInt64.size ∧ input.witness = []) Input.encode := by
  intro bs input rest
  simp only [Reader.input, bind_eq_ok, exact_txid _ _ _, exact_word _ _ _ _, exact_lengthPrefixed _ _ _, pure_eq_ok]
  constructor
  · rintro ⟨id, _, ⟨-, rfl⟩, index, _, ⟨hindex, rfl⟩, script, _, ⟨hscript, rfl⟩, sequence, _, ⟨hseq, rfl⟩, rfl, rfl⟩
    refine ⟨⟨hscript, rfl⟩, ?_⟩
    simp only [Input.encode, UInt32.toNat_ofNat_of_lt' hindex, UInt32.toNat_ofNat_of_lt' hseq, List.append_assoc]
  · obtain ⟨⟨id, index⟩, script, sequence, witness⟩ := input
    rintro ⟨⟨hscript, rfl⟩, rfl⟩
    refine ⟨id, _, ⟨trivial, ?_⟩, index.toNat, _, ⟨index.toNat_lt, rfl⟩, script, _, ⟨hscript, rfl⟩,
      sequence.toNat, rest, ⟨sequence.toNat_lt, rfl⟩, ?_, rfl⟩
    · simp only [Input.encode, List.append_assoc]
    · rw [UInt32.ofNat_toNat, UInt32.ofNat_toNat]

/-! ## Witnesses -/

/-- the items of a witness, as they are written, are not longer than is allowed -/
def WitnessFits (witness : List Bytes) : Prop :=
  (witness.flatMap CompactSize.lengthPrefixed).length ≤ witnessLimit

theorem length_le_witnessItems (witness : List Bytes) :
    witness.length ≤ (witness.flatMap CompactSize.lengthPrefixed).length := by
  induction witness with
  | nil => exact Nat.le_refl _
  | cons item witness ih =>
    have hpos := CompactSize.size_pos item.length
    rw [List.flatMap_cons, List.length_append, List.length_cons, CompactSize.length_lengthPrefixed]
    omega

/-- what the earlier items take up counts towards the limit -/
theorem exact_witnessItems {count left used : Nat} (hcount : count ≤ witnessLimit) (hused : used ≤ witnessLimit) :
    Exact (witnessItems count left used)
      (fun items =>
        items.length = left ∧ used + (items.flatMap CompactSize.lengthPrefixed).length ≤ witnessLimit)
      (·.flatMap CompactSize.lengthPrefixed) := by
  induction left generalizing used with
  | zero =>
    intro bs items rest
    rw [witnessItems, pure_eq_ok]
    constructor
    · rintro ⟨rfl, rfl⟩
      exact ⟨⟨rfl, hused⟩, rfl⟩
    · rintro ⟨⟨hlen, -⟩, rfl⟩
      rw [List.length_eq_zero_iff.1 hlen]
      exact ⟨rfl, rfl⟩
  | succ left ih =>
    intro bs items rest
    simp only [witnessItems, bind_eq_ok, exact_compactSize _ _ _]
    constructor
    · rintro ⟨length, middle, ⟨hlength, rfl⟩, hok⟩
      split at hok
      · cases hok
      · split at hok
        · cases hok
        · rename_i hfits
          simp only [bind_eq_ok, exact_take _ _ _ _, ih (Nat.not_lt.1 hfits) _ _ _, pure_eq_ok] at hok
          obtain ⟨item, _, ⟨rfl, rfl⟩, items, later, ⟨⟨rfl, hsum⟩, rfl⟩, rfl, rfl⟩ := hok
          refine ⟨⟨rfl, ?_⟩, ?_⟩
          · rw [List.flatMap_cons, List.length_append, CompactSize.length_lengthPrefixed]
            omega
          · simp only [List.flatMap_cons, CompactSize.lengthPrefixed, List.append_assoc, id]
    · rintro ⟨⟨hlen, hsum⟩, rfl⟩
      obtain ⟨item, items, rfl⟩ := List.exists_cons_of_length_eq_add_one hlen
      rw [List.flatMap_cons, List.length_append, CompactSize.length_lengthPrefixed] at hsum
      have hlimit : witnessLimit = 4000000 := rfl
      have hsize : UInt64.size = 0x10000000000000000 := rfl
      have hfits : ¬ witnessLimit < used + item.length + CompactSize.size item.length := by omega
      have hword : ¬ UInt64.size ≤ 4 * count + (used + item.length + CompactSize.size item.length) := by omega
      refine ⟨item.length, item ++ (items.flatMap CompactSize.lengthPrefixed ++ rest), ⟨by omega, ?_⟩, ?_⟩
      · simp only [List.flatMap_cons, CompactSize.lengthPrefixed, List.append_assoc]
      · rw [if_neg hword, if_neg hfits]
        simp only [bind_eq_ok, exact_take _ _ _ _, ih (Nat.not_lt.1 hfits) _ _ _, pure_eq_ok]
        exact ⟨item, _, ⟨rfl, rfl⟩, items, rest, ⟨⟨Nat.succ.inj hlen, by omega⟩, rfl⟩, rfl, rfl⟩

theorem exact_witness : Exact witness WitnessFits (CompactSize.counted CompactSize.lengthPrefixed) := by
  intro bs items rest
  have hlimit : witnessLimit = 4000000 := rfl
  have hsize : UInt64.size = 0x10000000000000000 := rfl
  simp only [witness, bind_eq_ok, exact_compactSize _ _ _]
  constructor
  · rintro ⟨count, middle, ⟨-, rfl⟩, hok⟩
    split at hok
    · cases hok
    · rename_i hcount
      obtain ⟨⟨rfl, hfits⟩, rfl⟩ := (exact_witnessItems (Nat.not_lt.1 hcount) (Nat.zero_le _) _ _ _).1 hok
      rw [Nat.zero_add] at hfits
      refine ⟨hfits, ?_⟩
      rw [CompactSize.counted, List.append_assoc]
  · rintro ⟨hfits, rfl⟩
    have hcount : items.length ≤ witnessLimit := Nat.le_trans (length_le_witnessItems items) hfits
    refine ⟨items.length, items.flatMap CompactSize.lengthPrefixed ++ rest, ⟨by omega, ?_⟩, ?_⟩
    · rw [CompactSize.counted, List.append_assoc]
    · rw [if_neg (Nat.not_lt.2 hcount)]
      refine (exact_witnessItems hcount (Nat.zero_le _) _ _ _).2 ⟨⟨rfl, ?_⟩, rfl⟩
      rw [Nat.zero_add]
      exact hfits

end BitcoinScript.Transaction.Reader
