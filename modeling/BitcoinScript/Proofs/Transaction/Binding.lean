/-
Transactions bound to a run from their bytes. Binding succeeds on the written form of a transaction with the index of
one of its inputs, and on nothing else. In hexadecimal the same transaction is bound, whatever the case of the digits
and the blanks around them.

Results:
- `Spend.ofBytes_eq_ok_iff`: what is bound, and from which bytes.
- `binding_exact`: bound transactions are written as they were read, no written form begins with another one, every
  transaction that can be written is bound again, and its hexadecimal text stands for it.
-/
import BitcoinScript.Proofs.Transaction.Codec
import BitcoinScript.Transaction.Spend

namespace BitcoinScript

namespace CompactSize

theorem encode_head (n : Nat) : (encode n)[0]? = some 0 ↔ n = 0 := by
  unfold encode
  split
  · rename_i hlt
    have hbyte : UInt8.ofNat n = 0 ↔ n = 0 := by
      rw [← UInt8.toNat_inj, UInt8.toNat_ofNat_of_lt' (Nat.lt_trans hlt (by decide))]
      rfl
    rw [Bytes.ofNatLE, List.getElem?_cons_zero, Option.some.injEq, hbyte]
  · rename_i hge
    have hne : n ≠ 0 := by omega
    have hmarker : ∀ (byte : UInt8) (rest : Bytes), byte ≠ 0 → (byte :: rest)[0]? ≠ some 0 :=
      fun byte rest hbyte hsome => hbyte (Option.some.inj hsome)
    refine iff_of_false ?_ hne
    split
    · exact hmarker 0xfd _ (by decide)
    · split
      · exact hmarker 0xfe _ (by decide)
      · exact hmarker 0xff _ (by decide)

end CompactSize

namespace Transaction

theorem length_encodeVersion (tx : Transaction) : tx.encodeVersion.length = 4 :=
  Bytes.length_ofNatLE 4 _

/-- the byte after the version tells the two forms apart -/
theorem encode_marker {tx : Transaction} (hne : tx.inputs ≠ []) :
    tx.encode[4]? = some 0x00 ↔ ∃ input ∈ tx.inputs, input.witness ≠ [] := by
  have hinputs : tx.inputs.length ≠ 0 := fun h => hne (List.length_eq_zero_iff.1 h)
  have hfirst (inputs : List Input) (rest : Bytes) :
      (tx.encodeVersion ++ (CompactSize.counted Input.encode inputs ++ rest))[4]?
        = (CompactSize.encode inputs.length)[0]? := by
    have hpos := CompactSize.size_pos inputs.length
    rw [List.getElem?_append_right (Nat.le_of_eq tx.length_encodeVersion), length_encodeVersion, Nat.sub_self,
      CompactSize.counted, List.append_assoc, List.getElem?_append_left (CompactSize.length_encode _ ▸ hpos)]
  cases hneeded : tx.hasWitness || tx.inputs.isEmpty with
  | true =>
    rw [Reader.encode_of_needed hneeded, hfirst, CompactSize.encode_head]
    exact iff_of_true rfl ((Reader.needed_iff.1 hneeded).resolve_left hne)
  | false =>
    obtain ⟨-, hbare⟩ := Reader.not_needed_iff.1 hneeded
    rw [Reader.encode_of_not_needed hneeded, hfirst, CompactSize.encode_head]
    refine iff_of_false hinputs ?_
    rintro ⟨input, hinput, hwitness⟩
    exact hwitness (hbare input hinput)

/-- no transaction is written as the beginning of another one -/
theorem eq_of_decode_of_begins {bs bs' : Bytes} {tx tx' : Transaction} (h : decode bs = .ok tx)
    (h' : decode bs' = .ok tx') (hbegins : bs <+: bs') : bs = bs' := by
  obtain ⟨hreadable, rfl⟩ := decode_eq_ok_iff.1 h
  obtain ⟨hreadable', rfl⟩ := decode_eq_ok_iff.1 h'
  obtain ⟨rest, hrest⟩ := hbegins
  have heq : tx.encode ++ rest = tx'.encode ++ [] := hrest.trans (List.append_nil _).symm
  obtain ⟨rfl, -⟩ := Reader.exact_transaction.inj hreadable hreadable' heq
  rfl

end Transaction

namespace Spend

theorem ofTransaction_eq_ok_iff {tx : Transaction} {index : Nat} {spend : Spend} :
    ofTransaction tx index = .ok spend ↔ spend.tx = tx ∧ spend.index = index := by
  rw [ofTransaction]
  split
  · rw [Except.ok.injEq]
    constructor
    · rintro rfl
      exact ⟨rfl, rfl⟩
    · rintro ⟨rfl, rfl⟩
      rfl
  · rename_i hge
    refine iff_of_false nofun ?_
    rintro ⟨rfl, rfl⟩
    exact hge spend.index_lt

theorem ofBytes_eq_ok_iff {raw : Bytes} {index : Nat} {spend : Spend} :
    ofBytes raw index = .ok spend ↔ Transaction.decode raw = .ok spend.tx ∧ spend.index = index := by
  rw [ofBytes]
  cases hdecode : Transaction.decode raw with
  | error e => exact iff_of_false nofun nofun
  | ok tx =>
    show ofTransaction tx index = _ ↔ _
    rw [ofTransaction_eq_ok_iff, Except.ok.injEq, eq_comm]

theorem ofBytes_encode {tx : Transaction} (h : tx.Readable) (index : Nat) :
    ofBytes tx.encode index = ofTransaction tx index := by
  rw [ofBytes, Transaction.decode_eq_ok_iff.2 ⟨h, rfl⟩]

theorem ofText_ofList {raw : Bytes} {lead hex trail : List Char} (hhex : hex.map Char.toLower = Hex.digits raw)
    (hlead : ∀ c ∈ lead, Text.isBlank c = true) (htrail : ∀ c ∈ trail, Text.isBlank c = true) (index : Nat) :
    ofText (String.ofList (lead ++ hex ++ trail)) index = ofBytes raw index := by
  have hdigits : ∀ c ∈ hex, Text.isBlank c = false := by
    intro c hc
    have hcode := Hex.toNat_of_mem hhex hc
    exact Text.isBlank_eq_false (by omega) (by omega)
  rw [ofText, Text.trim_ofList hlead hdigits htrail, Hex.decode_of_toLower hhex]

end Spend

/-- **Binding is an exact codec.** A bound transaction has the bound input, is written as it was read, with a marker if
there is a witness and only then, and nothing that begins it or goes on from it is bound. Every transaction whose counts
and witnesses can be written is bound with the indices of its inputs only, and as hexadecimal text as well. -/
theorem binding_exact :
    (∀ raw index spend, Spend.ofBytes raw index = .ok spend →
      spend.index = index ∧ index < spend.tx.inputs.length ∧ spend.tx.encode = raw ∧
      (raw[4]? = some 0x00 ↔ ∃ input ∈ spend.tx.inputs, input.witness ≠ []) ∧
      ∀ raw' index' spend', raw' ≠ raw → raw' <+: raw ∨ raw <+: raw' → Spend.ofBytes raw' index' ≠ .ok spend') ∧
    (∀ tx : Transaction, tx.Readable → ∀ index,
      (∀ h : index < tx.inputs.length, Spend.ofBytes tx.encode index = .ok ⟨tx, index, h⟩) ∧
      (tx.inputs.length ≤ index →
        Spend.ofBytes tx.encode index = .error (.inputIndex index tx.inputs.length))) ∧
    (∀ raw hex lead trail, hex.map Char.toLower = Hex.digits raw →
      (∀ c ∈ lead, Text.isBlank c = true) → (∀ c ∈ trail, Text.isBlank c = true) →
      ∀ index, Spend.ofText (String.ofList (lead ++ hex ++ trail)) index = Spend.ofBytes raw index) := by
  refine ⟨?_, ?_, ?_⟩
  · intro raw index spend hbound
    obtain ⟨hdecode, rfl⟩ := Spend.ofBytes_eq_ok_iff.1 hbound
    obtain ⟨-, hraw⟩ := Transaction.decode_eq_ok_iff.1 hdecode
    have hne : spend.tx.inputs ≠ [] := List.ne_nil_of_length_pos (Nat.zero_lt_of_lt spend.index_lt)
    refine ⟨rfl, spend.index_lt, hraw.symm, ?_, ?_⟩
    · rw [hraw]
      exact Transaction.encode_marker hne
    · intro raw' index' spend' hother hbegins hbound'
      obtain ⟨hdecode', -⟩ := Spend.ofBytes_eq_ok_iff.1 hbound'
      rcases hbegins with hshorter | hlonger
      · exact hother (Transaction.eq_of_decode_of_begins hdecode' hdecode hshorter)
      · exact hother (Transaction.eq_of_decode_of_begins hdecode hdecode' hlonger).symm
  · intro tx hreadable index
    rw [Spend.ofBytes_encode hreadable, Spend.ofTransaction]
    refine ⟨fun hlt => dif_pos hlt, fun hge => dif_neg (Nat.not_lt.2 hge)⟩
  · intro raw hex lead trail hhex hlead htrail index
    exact Spend.ofText_ofList hhex hlead htrail index

/-- a transaction with one input, which has a witness, and one output -/
def Transaction.witnessed : Transaction where
  version := 1
  inputs := [⟨⟨⟨List.replicate 32 1, rfl⟩, 1⟩, [], 0xffffffff, [[0xab], []]⟩]
  outputs := [⟨5000, [0x51]⟩]
  lockTime := 0

theorem binding_exact_witnessed :
    Transaction.witnessed.Readable ∧ Transaction.witnessed.encode[4]? = some 0x00 ∧
      Spend.ofBytes Transaction.witnessed.encode 0 = .ok ⟨.witnessed, 0, by decide⟩ ∧
      Spend.ofBytes Transaction.witnessed.encode 1 = .error (.inputIndex 1 1) ∧
      (∀ index spend, Spend.ofBytes (Transaction.witnessed.encode ++ [0x00]) index ≠ .ok spend) ∧
      Spend.ofText
          (String.ofList (['\t'] ++ (Hex.digits Transaction.witnessed.encode).map Char.toUpper ++ ['\n'])) 0 =
        Spend.ofBytes Transaction.witnessed.encode 0 := by
  have hreadable : Transaction.witnessed.Readable :=
    ⟨⟨by decide, by decide, by decide, by decide⟩, by unfold Transaction.Reader.WitnessFits; decide⟩
  obtain ⟨hbinds, -⟩ := binding_exact.2.1 .witnessed hreadable 0
  obtain ⟨-, -, -, hmarker, hunique⟩ := binding_exact.1 _ _ _ (hbinds (by decide))
  refine ⟨hreadable, hmarker.2 ⟨_, List.mem_singleton.2 rfl, List.cons_ne_nil _ _⟩, hbinds (by decide),
    (binding_exact.2.1 .witnessed hreadable 1).2 (by decide), ?_, ?_⟩
  · intro index spend
    exact hunique _ index spend (by simp) (.inr (List.prefix_append _ _))
  · have hblank : (∀ c ∈ ['\t'], Text.isBlank c = true) ∧ ∀ c ∈ ['\n'], Text.isBlank c = true := by
      simp only [List.forall_mem_cons, List.not_mem_nil, false_implies, implies_true, and_true]
      exact ⟨rfl, rfl⟩
    exact binding_exact.2.2 _ _ _ _ (by decide +kernel) hblank.1 hblank.2 0

end BitcoinScript
