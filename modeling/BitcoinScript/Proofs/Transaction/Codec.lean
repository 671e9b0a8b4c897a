/-
The written form of a transaction and its reading. There are two forms, and a transaction has exactly one of them: the
form with witnesses is refused where the plain one would do. So what is read is written in the same way again, and no
transaction is written as the beginning of another one.

Results:
- `exact_transaction`: a transaction is read from its written form only, and whatever follows it is left.
- `decode_eq_ok_iff`: the written form is the only byte string that decodes to the transaction.
-/
import BitcoinScript.Proofs.Transaction.Reading

namespace BitcoinScript.Transaction

namespace Reader

/-! ## Inputs and their witnesses -/

/-- an input as it is read at first -/
def bare (input : Input) : Input := { input with witness := [] }

/-- the witnesses of a transaction, in the order of its inputs -/
def encodeWitnesses (inputs : List Input) : Bytes :=
  inputs.flatMap fun input => CompactSize.counted CompactSize.lengthPrefixed input.witness

theorem zipWith_bare (inputs : List Input) :
    (inputs.map bare).zipWith (fun input witness => { input with witness }) (inputs.map Input.witness) = inputs := by
  rw [List.zipWith_map, List.zipWith_self]
  exact List.map_id inputs

theorem exists_inputs {bares : List Input} (hbare : ∀ input ∈ bares, input.witness = []) :
    ∀ {witnesses : List (List Bytes)}, witnesses.length = bares.length →
      ∃ inputs : List Input, bares = inputs.map bare ∧ witnesses = inputs.map Input.witness := by
  induction bares with
  | nil =>
    intro witnesses hlen
    exact ⟨[], rfl, List.length_eq_zero_iff.1 hlen⟩
  | cons input bares ih =>
    intro witnesses hlen
    obtain ⟨witness, witnesses, rfl⟩ := List.exists_cons_of_length_eq_add_one hlen
    obtain ⟨inputs, rfl, rfl⟩ := ih (fun i hi => hbare i (List.mem_cons_of_mem _ hi)) (Nat.succ.inj hlen)
    have hinput : bare { input with witness } = input := by
      rw [bare, ← hbare input List.mem_cons_self]
    refine ⟨{ input with witness } :: inputs, ?_, rfl⟩
    rw [List.map_cons, hinput]

theorem encode_bares (inputs : List Input) :
    CompactSize.counted Input.encode (inputs.map bare) = CompactSize.counted Input.encode inputs := by
  rw [CompactSize.counted, CompactSize.counted, List.length_map, List.flatMap_map]
  rfl

end Reader

/-! ## The two forms -/

/-- counts and lengths fit the eight bytes that they are written in at most, as they do of all that lies in memory -/
structure Sized (tx : Transaction) : Prop where
  inputs : tx.inputs.length < UInt64.size
  outputs : tx.outputs.length < UInt64.size
  inputScripts : ∀ input ∈ tx.inputs, input.script.length < UInt64.size
  outputScripts : ∀ output ∈ tx.outputs, output.script.length < UInt64.size

/-- the transaction can be read back from its written form -/
def Readable (tx : Transaction) : Prop :=
  tx.Sized ∧ ∀ input ∈ tx.inputs, Reader.WitnessFits input.witness

namespace Reader

theorem exact_plainForm (version : Int32) (inputs : List Input) :
    Exact (plainForm version inputs)
      (fun tx => tx.version = version ∧ tx.inputs = inputs ∧ tx.outputs.length < UInt64.size ∧
        ∀ output ∈ tx.outputs, output.script.length < UInt64.size)
      (fun tx => CompactSize.counted Output.encode tx.outputs ++ tx.encodeLockTime) := by
  intro bs tx rest
  simp only [plainForm, bind_eq_ok, exact_output.counted _ _ _, exact_word _ _ _ _, pure_eq_ok]
  constructor
  · rintro ⟨outputs, _, ⟨houtputs, rfl⟩, lockTime, _, ⟨hlock, rfl⟩, rfl, rfl⟩
    refine ⟨⟨rfl, rfl, houtputs⟩, ?_⟩
    rw [encodeLockTime, UInt32.toNat_ofNat_of_lt' hlock, List.append_assoc]
  · obtain ⟨_, _, outputs, lockTime⟩ := tx
    rintro ⟨⟨rfl, rfl, houtputs⟩, rfl⟩
    refine ⟨outputs, _, ⟨houtputs, ?_⟩, lockTime.toNat, rest, ⟨lockTime.toNat_lt, rfl⟩, ?_, rfl⟩
    · rw [List.append_assoc]
      rfl
    · rw [UInt32.ofNat_toNat]

theorem noWitness_eq (tx : Transaction) :
    (!(tx.inputs.map bare).isEmpty && (tx.inputs.map Input.witness).all List.isEmpty)
      = !(tx.hasWitness || tx.inputs.isEmpty) := by
  rw [hasWitness, Bool.not_or, List.not_any_eq_all_not, List.isEmpty_map, List.all_map, Bool.and_comm]
  simp only [Bool.not_not, Function.comp_def]

/-- what follows the marker in the form with witnesses -/
def encodeMarked (tx : Transaction) : Bytes :=
  0x01 :: (tx.encodeBody ++ encodeWitnesses tx.inputs ++ tx.encodeLockTime)

theorem of_witnessForm {version : Int32} {bs rest : Bytes} {tx : Transaction}
    (hok : witnessForm version bs = .ok (tx, rest)) :
    (tx.version = version ∧ tx.Readable ∧ (tx.hasWitness || tx.inputs.isEmpty) = true) ∧
      bs = encodeMarked tx ++ rest := by
  simp only [witnessForm, bind_eq_ok, exact_word _ _ _ _] at hok
  obtain ⟨flag, _, ⟨-, rfl⟩, hok⟩ := hok
  split at hok
  · cases hok
  · rename_i hone
    obtain rfl := Decidable.not_not.1 hone
    simp only [bind_eq_ok, exact_input.counted _ _ _, exact_output.counted _ _ _, exact_witness.many _ _ _ _] at hok
    obtain ⟨bares, _, ⟨⟨hcount, hbares⟩, rfl⟩, outputs, _, ⟨houtputs, rfl⟩,
      witnesses, _, ⟨⟨hlen, hfits⟩, rfl⟩, hok⟩ := hok
    obtain ⟨inputs, rfl, rfl⟩ := exists_inputs (fun input hinput => (hbares input hinput).2) hlen
    split at hok
    · cases hok
    · rename_i hneeded
      simp only [bind_eq_ok, exact_word _ _ _ _, pure_eq_ok] at hok
      obtain ⟨lockTime, _, ⟨hlock, rfl⟩, rfl, rfl⟩ := hok
      rw [List.length_map] at hcount
      rw [List.forall_mem_map] at hbares hfits
      rw [noWitness_eq ⟨version, inputs, outputs, UInt32.ofNat lockTime⟩, Bool.not_eq_true, Bool.not_eq_false']
        at hneeded
      have hsized : Sized ⟨version, inputs, outputs, UInt32.ofNat lockTime⟩ :=
        ⟨hcount, houtputs.1, fun input hinput => (hbares input hinput).1, houtputs.2⟩
      rw [zipWith_bare]
      refine ⟨⟨rfl, ⟨hsized, hfits⟩, hneeded⟩, ?_⟩
      rw [encode_bares, List.flatMap_map, encodeMarked, encodeBody, encodeLockTime, UInt32.toNat_ofNat_of_lt' hlock]
      simp only [List.append_assoc, List.cons_append]
      rfl

theorem witnessForm_encodeMarked {tx : Transaction} (hreadable : tx.Readable)
    (hneeded : (tx.hasWitness || tx.inputs.isEmpty) = true) (rest : Bytes) :
    witnessForm tx.version (encodeMarked tx ++ rest) = .ok (tx, rest) := by
  obtain ⟨version, inputs, outputs, lockTime⟩ := tx
  obtain ⟨hsized, hfits⟩ := hreadable
  simp only [witnessForm, bind_eq_ok, exact_word _ _ _ _]
  refine ⟨1, _, ⟨by decide, rfl⟩, ?_⟩
  rw [if_neg (not_not_intro rfl)]
  simp only [bind_eq_ok, exact_input.counted _ _ _, exact_output.counted _ _ _, exact_witness.many _ _ _ _]
  have hbares : ∀ input ∈ inputs.map bare, input.script.length < UInt64.size ∧ input.witness = [] := by
    rw [List.forall_mem_map]
    intro input hinput
    exact ⟨hsized.inputScripts input hinput, rfl⟩
  refine ⟨inputs.map bare, _, ⟨⟨?_, hbares⟩, ?_⟩, outputs, _, ⟨⟨hsized.outputs, hsized.outputScripts⟩, rfl⟩,
    inputs.map Input.witness, Bytes.ofNatLE 4 lockTime.toNat ++ rest, ⟨⟨?_, ?_⟩, rfl⟩, ?_⟩
  · rw [List.length_map]
    exact hsized.inputs
  · rw [encode_bares, List.flatMap_map, encodeBody, encodeWitnesses, encodeLockTime]
    show ((_ ++ _) ++ _ ++ _) ++ rest = _
    simp only [List.append_assoc]
  · rw [List.length_map, List.length_map]
  · rw [List.forall_mem_map]
    exact hfits
  · have hcheck := noWitness_eq ⟨version, inputs, outputs, lockTime⟩
    rw [hneeded] at hcheck
    rw [hcheck]
    simp only [Bool.not_true, Bool.false_eq_true, if_false, bind_eq_ok, exact_word _ _ _ _, pure_eq_ok]
    refine ⟨lockTime.toNat, rest, ⟨lockTime.toNat_lt, rfl⟩, ?_, rfl⟩
    rw [zipWith_bare, UInt32.ofNat_toNat]

theorem exact_witnessForm (version : Int32) :
    Exact (witnessForm version)
      (fun tx => tx.version = version ∧ tx.Readable ∧ (tx.hasWitness || tx.inputs.isEmpty) = true) encodeMarked := by
  intro bs tx rest
  constructor
  · exact of_witnessForm
  · rintro ⟨⟨rfl, hreadable, hneeded⟩, rfl⟩
    exact witnessForm_encodeMarked hreadable hneeded rest

/-- the marker of the form with witnesses is an empty list of inputs -/
theorem encode_of_needed {tx : Transaction} (h : (tx.hasWitness || tx.inputs.isEmpty) = true) :
    tx.encode = tx.encodeVersion ++ (CompactSize.counted Input.encode [] ++ encodeMarked tx) := by
  have hmarker : CompactSize.counted Input.encode [] = [0x00] := rfl
  rw [encode, if_pos h, encodeWithWitnesses, encodeMarked, encodeWitnesses, hmarker]
  simp only [List.append_assoc, List.cons_append, List.nil_append]

theorem encode_of_not_needed {tx : Transaction} (h : (tx.hasWitness || tx.inputs.isEmpty) = false) :
    tx.encode = tx.encodeVersion ++ (CompactSize.counted Input.encode tx.inputs ++
      (CompactSize.counted Output.encode tx.outputs ++ tx.encodeLockTime)) := by
  rw [encode, h, if_neg Bool.false_ne_true, encodePlain, encodeBody]
  simp only [List.append_assoc]

theorem needed_iff {tx : Transaction} :
    (tx.hasWitness || tx.inputs.isEmpty) = true ↔ tx.inputs = [] ∨ ∃ input ∈ tx.inputs, input.witness ≠ [] := by
  simp only [hasWitness, Bool.or_eq_true, List.any_eq_true, Bool.not_eq_true', List.isEmpty_iff,
    List.isEmpty_eq_false_iff, or_comm, ne_eq]

theorem not_needed_iff {tx : Transaction} :
    (tx.hasWitness || tx.inputs.isEmpty) = false ↔ tx.inputs ≠ [] ∧ ∀ input ∈ tx.inputs, input.witness = [] := by
  simp only [hasWitness, Bool.or_eq_false_iff, List.any_eq_false, Bool.not_eq_true, Bool.not_eq_false',
    List.isEmpty_iff, List.isEmpty_eq_false_iff, and_comm]

theorem encodeVersion_read {tx : Transaction} {n : Nat} (h : tx.version = (UInt32.ofNat n).toInt32)
    (hn : n < Bytes.capacity 4) : tx.encodeVersion = Bytes.ofNatLE 4 n := by
  rw [encodeVersion, h, UInt32.toUInt32_toInt32, UInt32.toNat_ofNat_of_lt' hn]

/-- a transaction is read in the form that it is written in, and in no other -/
theorem exact_transaction : Exact transaction Readable encode := by
  intro bs tx rest
  simp only [transaction, bind_eq_ok, exact_word _ _ _ _, exact_input.counted _ _ _]
  constructor
  · rintro ⟨version, _, ⟨hversion, rfl⟩, inputs, middle, ⟨⟨hcount, hinputs⟩, rfl⟩, hok⟩
    split at hok
    · rename_i hempty
      obtain rfl := List.isEmpty_iff.1 hempty
      obtain ⟨⟨heq, hreadable, hneeded⟩, rfl⟩ := (exact_witnessForm _ _ _ _).1 hok
      refine ⟨hreadable, ?_⟩
      rw [encode_of_needed hneeded, encodeVersion_read heq hversion]
      simp only [List.append_assoc]
    · rename_i hne
      obtain ⟨⟨heq, rfl, houtputs⟩, rfl⟩ := (exact_plainForm _ _ _ _ _).1 hok
      have hbare : ∀ input ∈ tx.inputs, input.witness = [] := fun input hinput => (hinputs input hinput).2
      have hplain := not_needed_iff.2 ⟨fun hempty => hne (List.isEmpty_iff.2 hempty), hbare⟩
      have hfits : ∀ input ∈ tx.inputs, WitnessFits input.witness := by
        intro input hinput
        rw [hbare input hinput]
        exact Nat.zero_le _
      refine ⟨⟨⟨hcount, houtputs.1, fun input hinput => (hinputs input hinput).1, houtputs.2⟩, hfits⟩, ?_⟩
      rw [encode_of_not_needed hplain, encodeVersion_read heq hversion]
      simp only [List.append_assoc]
  · rintro ⟨hreadable, rfl⟩
    have hversion : (UInt32.ofNat tx.version.toUInt32.toNat).toInt32 = tx.version := by
      rw [UInt32.ofNat_toNat, Int32.toInt32_toUInt32]
    cases hneeded : tx.hasWitness || tx.inputs.isEmpty with
    | true =>
      rw [encode_of_needed hneeded, List.append_assoc, List.append_assoc]
      refine ⟨tx.version.toUInt32.toNat, _, ⟨UInt32.toNat_lt _, rfl⟩, [], _, ⟨⟨by decide, nofun⟩, rfl⟩, ?_⟩
      rw [List.isEmpty_nil, if_pos rfl]
      exact (exact_witnessForm _ _ _ _).2 ⟨⟨hversion.symm, hreadable, hneeded⟩, rfl⟩
    | false =>
      obtain ⟨hne, hbare⟩ := not_needed_iff.1 hneeded
      obtain ⟨hsized, -⟩ := hreadable
      have hinputs : ∀ input ∈ tx.inputs, input.script.length < UInt64.size ∧ input.witness = [] :=
        fun input hinput => ⟨hsized.inputScripts input hinput, hbare input hinput⟩
      rw [encode_of_not_needed hneeded, List.append_assoc, List.append_assoc]
      refine ⟨tx.version.toUInt32.toNat, _, ⟨UInt32.toNat_lt _, rfl⟩, tx.inputs, _, ⟨⟨hsized.inputs, hinputs⟩, rfl⟩, ?_⟩
      rw [if_neg (fun hempty => hne (List.isEmpty_iff.1 hempty))]
      exact (exact_plainForm _ _ _ _ _).2 ⟨⟨hversion.symm, rfl, hsized.outputs, hsized.outputScripts⟩, rfl⟩

end Reader

/-- the written form of a transaction is the only byte string that decodes to it -/
theorem decode_eq_ok_iff {bs : Bytes} {tx : Transaction} : decode bs = .ok tx ↔ tx.Readable ∧ bs = tx.encode := by
  have hwhole : decode bs = .ok tx ↔ Reader.transaction bs = .ok (tx, []) := by
    rw [decode]
    split
    · rename_i hread
      rw [hread, Except.ok.injEq, Except.ok.injEq, Prod.mk.injEq, and_iff_left rfl]
    · rename_i hread
      rw [hread]
      exact iff_of_false nofun nofun
    · rename_i hread
      rw [hread]
      exact iff_of_false nofun nofun
  rw [hwhole, Reader.exact_transaction, List.append_nil]

end BitcoinScript.Transaction
