/-
What a signature commits to. The digest that is signed is computed from a part of the transaction, the script code and
the hash type. That part is written down here on its own, as the commitment: which inputs and outputs it keeps, and what
stands for the others. The signed bytes are the written form of the commitment, and different commitments have different
ones, so the digest depends on the commitment and on nothing else, and all of the commitment is in the signed bytes.

Results:
- `signaturePreimage_eq`: the signed bytes are the written form of the commitment.
- `Commitment.encode_inj`: the commitment can be told from its written form.
- `signature_commits`: both for every pair of calls, with the two cases in which nothing is written.
-/
import BitcoinScript.Proofs.Transaction.Codec
import BitcoinScript.Transaction.SignatureHash

namespace BitcoinScript

/-! ## The commitment -/

/-- what a hash type selects, told from its bits `9f` -/
def Coverage.selected (hashType : UInt32) : Coverage where
  outputs :=
    if hashType &&& 0x9f ∈ [0x02, 0x82] then .none else if hashType &&& 0x9f ∈ [0x03, 0x83] then .single else .all
  anyoneCanPay := 0x80 ≤ hashType &&& 0x9f

/-- what is left of an input -/
structure CommittedInput where
  source : OutPoint
  script : Bytes
  sequence : UInt32
  deriving DecidableEq

/-- what a digest is computed from -/
structure Commitment where
  version : Int32
  inputs : List CommittedInput
  outputs : List Output
  lockTime : UInt32
  hashType : UInt32
  deriving DecidableEq

namespace Transaction

/-- the signed input with the script code, and unless others may be added, those without their scripts. Their sequences
are left out with the outputs. -/
def committedInputs (tx : Transaction) (index : Nat) (code : Bytes) (coverage : Coverage) : List CommittedInput :=
  (tx.inputs.zipIdx.filter fun (_, i) => i = index || !coverage.anyoneCanPay).map fun (input, i) =>
    if i = index then ⟨input.source, code, input.sequence⟩
    else ⟨input.source, [], if coverage.outputs = .all then input.sequence else 0⟩

/-- all outputs, none, or the one beside the signed input after blank ones -/
def committedOutputs (tx : Transaction) (index : Nat) (coverage : Coverage) : List Output :=
  match coverage.outputs with
  | .all => tx.outputs
  | .none => []
  | .single => List.replicate index blankOutput ++ tx.outputs[index]?.toList

/-- what the digest for input `index` is computed from -/
def commitment (tx : Transaction) (index : Nat) (code : Bytes) (hashType : UInt32) : Commitment where
  version := tx.version
  inputs := tx.committedInputs index code (.selected hashType)
  outputs := tx.committedOutputs index (.selected hashType)
  lockTime := tx.lockTime
  hashType := hashType

/-- the hash type asks for the output beside the signed input, and there is none -/
def LacksOutput (tx : Transaction) (index : Nat) (hashType : UInt32) : Prop :=
  (Coverage.selected hashType).outputs = .single ∧ tx.outputs.length ≤ index

end Transaction

/-! ## The hash type -/

namespace Coverage

theorem ofHashType_masked (hashType : UInt32) : ofHashType (hashType &&& 0x9f) = ofHashType hashType := by
  have hlow : hashType &&& 0x9f &&& 0x1f = hashType &&& 0x1f := UInt32.and_assoc hashType 0x9f 0x1f
  have hhigh : hashType &&& 0x9f &&& 0x80 = hashType &&& 0x80 := UInt32.and_assoc hashType 0x9f 0x80
  rw [ofHashType, ofHashType, hlow, hhigh]

theorem selected_masked (hashType : UInt32) : selected (hashType &&& 0x9f) = selected hashType := by
  have hmask : hashType &&& 0x9f &&& 0x9f = hashType &&& 0x9f := UInt32.and_assoc hashType 0x9f 0x9f
  rw [selected, selected, hmask]

/-- bits `1f` and bit `80` taken apart, or bits `9f` together, which leave few cases -/
theorem ofHashType_eq (hashType : UInt32) : ofHashType hashType = selected hashType := by
  have hfew : ∀ n < 0xa0, ofHashType (UInt32.ofNat n) = selected (UInt32.ofNat n) := by decide +kernel
  have hle : (hashType &&& 0x9f).toNat ≤ 0x9f := UInt32.le_iff_toNat_le.1 UInt32.and_le_right
  have hbits := hfew (hashType &&& 0x9f).toNat (Nat.lt_succ_of_le hle)
  rwa [UInt32.ofNat_toNat, ofHashType_masked, selected_masked] at hbits

end Coverage

/-! ## The written form of a commitment -/

namespace Commitment

/-- the transaction that is written out -/
def copy (c : Commitment) : Transaction where
  version := c.version
  inputs := c.inputs.map fun input => ⟨input.source, input.script, input.sequence, []⟩
  outputs := c.outputs
  lockTime := c.lockTime

/-- the signed bytes -/
def encode (c : Commitment) : Bytes :=
  c.copy.encodePlain ++ Bytes.ofNatLE 4 c.hashType.toNat

theorem copy_inj {c d : Commitment} (hcopy : c.copy = d.copy) (htype : c.hashType = d.hashType) : c = d := by
  obtain ⟨version, inputs, outputs, lockTime, hashType⟩ := c
  obtain ⟨version', inputs', outputs', lockTime', hashType'⟩ := d
  simp only [copy, Transaction.mk.injEq] at hcopy
  obtain ⟨rfl, hinputs, rfl, rfl⟩ := hcopy
  have hmap : inputs = inputs' := by
    refine (List.map_inj_right ?_).1 hinputs
    rintro ⟨source, script, sequence⟩ ⟨source', script', sequence'⟩ h
    cases h
    rfl
  rw [hmap, show hashType = hashType' from htype]

theorem readable_copy {c : Commitment} (h : c.copy.Sized) : c.copy.Readable := by
  refine ⟨h, ?_⟩
  rw [copy, List.forall_mem_map]
  intro input _
  exact Nat.zero_le _

theorem encode_copy {c : Commitment} (hne : c.inputs ≠ []) : c.copy.encode = c.copy.encodePlain := by
  have hbare : ∀ input ∈ c.copy.inputs, input.witness = [] := by
    rw [copy, List.forall_mem_map]
    intro input _
    rfl
  have hplain := Transaction.Reader.not_needed_iff.2 ⟨fun h => hne (List.map_eq_nil_iff.1 h), hbare⟩
  rw [Transaction.encode, hplain, if_neg Bool.false_ne_true]

/-- a commitment can be told from its written form -/
theorem encode_inj {c d : Commitment} (hc : c.copy.Sized) (hd : d.copy.Sized) (hcne : c.inputs ≠ [])
    (hdne : d.inputs ≠ []) (h : c.encode = d.encode) : c = d := by
  rw [encode, encode, ← encode_copy hcne, ← encode_copy hdne] at h
  obtain ⟨hcopy, htype⟩ := Transaction.Reader.exact_transaction.inj (readable_copy hc) (readable_copy hd) h
  have hword : ∀ t : UInt32, Bytes.toNatLE (Bytes.ofNatLE 4 t.toNat) = t.toNat :=
    fun t => @Bytes.toNatLE_ofNatLE 4 _ t.toNat_lt
  have hnat : c.hashType.toNat = d.hashType.toNat := by
    rw [← hword c.hashType, htype, hword d.hashType]
  exact copy_inj hcopy (UInt32.toNat_inj.1 hnat)

end Commitment

/-! ## The signed copy -/

namespace Transaction

theorem filter_zipIdx {α : Type} (l : List α) (start index : Nat) :
    ((l.zipIdx start).filter fun p => p.2 = start + index) = l[index]?.toList.map (·, start + index) := by
  induction l generalizing start index with
  | nil => rfl
  | cons x l ih =>
    rw [List.zipIdx_cons]
    cases index with
    | zero =>
      have hrest : ((l.zipIdx (start + 1)).filter fun p => p.2 = start + 0) = [] := by
        rw [List.filter_eq_nil_iff]
        intro p hmem
        have hle : start + 1 ≤ p.2 := List.le_snd_of_mem_zipIdx hmem
        rw [decide_eq_true_eq]
        omega
      have hhead : decide ((x, start).2 = start + 0) = true := decide_eq_true rfl
      rw [List.filter_cons, if_pos hhead, hrest]
      rfl
    | succ index =>
      have hshift : start + 1 + index = start + (index + 1) := by omega
      have hhead : ¬ decide ((x, start).2 = start + (index + 1)) = true := by
        rw [decide_eq_true_eq]
        omega
      have htail := ih (start + 1) index
      rw [hshift] at htail
      rw [List.filter_cons, if_neg hhead, htail, List.getElem?_cons_succ]

theorem coveredInputs_eq (tx : Transaction) (index : Nat) (code : Bytes) (coverage : Coverage) :
    tx.coveredInputs index code coverage = (tx.committedInputs index code coverage).map fun input =>
      ⟨input.source, input.script, input.sequence, []⟩ := by
  rw [coveredInputs, committedInputs, List.map_map]
  cases coverage.anyoneCanPay with
  | true =>
    have hkept := filter_zipIdx tx.inputs 0 index
    simp only [Nat.zero_add] at hkept
    simp only [Bool.not_true, Bool.or_false, if_true, hkept, List.map_map]
    congr 1
    funext input
    simp only [Function.comp_apply, if_true]
  | false =>
    have hall : (tx.inputs.zipIdx.filter fun p => decide (p.2 = index) || true) = tx.inputs.zipIdx :=
      List.filter_eq_self.2 fun _ _ => Bool.or_true _
    simp only [Bool.not_false, hall, List.mapIdx_eq_zipIdx_map, Bool.false_eq_true, if_false]
    congr 1
    funext p
    rw [Function.comp_apply]
    split <;> rfl

theorem coveredOutputs_eq {tx : Transaction} {index : Nat} {coverage : Coverage}
    (h : coverage.outputs = .single → index < tx.outputs.length) :
    tx.coveredOutputs index coverage = tx.committedOutputs index coverage := by
  rw [coveredOutputs, committedOutputs]
  cases hcase : coverage.outputs with
  | all => rfl
  | none => rfl
  | single =>
    have hlen : (tx.outputs.take index).length = index := List.length_take_of_le (Nat.le_of_lt (h hcase))
    have hblank : (tx.outputs.take index).mapIdx (fun i output => if i = index then output else blankOutput)
        = List.replicate (tx.outputs.take index).length blankOutput := by
      rw [List.mapIdx_eq_replicate_iff]
      intro i hi
      rw [if_neg (by omega)]
    have hlast : tx.outputs[index]?.toList.mapIdx
        (fun i output => if i + (tx.outputs.take index).length = index then output else blankOutput)
        = tx.outputs[index]?.toList := by
      rw [List.getElem?_eq_getElem (h hcase), hlen]
      simp
    show (tx.outputs.take (index + 1)).mapIdx _ = _
    rw [List.take_add_one, List.mapIdx_append, hblank, hlast, hlen]

theorem signaturePreimage_eq {tx : Transaction} {index : Nat} {code : Bytes} {hashType : UInt32}
    (h : ¬ tx.LacksOutput index hashType) :
    tx.signaturePreimage index code hashType = (tx.commitment index code hashType).encode := by
  have hsingle : (Coverage.selected hashType).outputs = .single → index < tx.outputs.length := by
    intro hcase
    exact Nat.not_le.1 fun hle => h ⟨hcase, hle⟩
  have hcopy : tx.signedCopy index code (.ofHashType hashType) = (tx.commitment index code hashType).copy := by
    rw [signedCopy, Coverage.ofHashType_eq, coveredInputs_eq, coveredOutputs_eq hsingle]
    rfl
  rw [signaturePreimage, hcopy]
  rfl

theorem committedInputs_ne_nil {tx : Transaction} {index : Nat} (h : index < tx.inputs.length) (code : Bytes)
    (coverage : Coverage) : tx.committedInputs index code coverage ≠ [] := by
  have hsigned : (tx.inputs[index], index) ∈ tx.inputs.zipIdx :=
    List.mk_mem_zipIdx_iff_getElem?.2 (List.getElem?_eq_getElem h)
  refine List.ne_nil_of_mem (List.mem_map_of_mem (List.mem_filter.2 ⟨hsigned, ?_⟩))
  rw [Bool.or_eq_true]
  exact .inl (decide_eq_true rfl)

theorem sized_commitment {tx : Transaction} {index : Nat} {code : Bytes} {hashType : UInt32} (hsized : tx.Sized)
    (hcode : code.length < UInt64.size) (h : ¬ tx.LacksOutput index hashType) :
    (tx.commitment index code hashType).copy.Sized where
  inputs := by
    have hle := List.length_filter_le
      (fun (p : Input × Nat) => p.2 = index || !(Coverage.selected hashType).anyoneCanPay) tx.inputs.zipIdx
    rw [List.length_zipIdx] at hle
    simp only [Commitment.copy, commitment, committedInputs, List.length_map]
    exact Nat.lt_of_le_of_lt hle hsized.inputs
  outputs := by
    simp only [Commitment.copy, commitment, committedOutputs]
    cases hcase : (Coverage.selected hashType).outputs with
    | all => exact hsized.outputs
    | none => exact (by decide : 0 < UInt64.size)
    | single =>
      have hlt : index < tx.outputs.length := Nat.not_le.1 fun hle => h ⟨hcase, hle⟩
      have hall := hsized.outputs
      show (List.replicate index blankOutput ++ tx.outputs[index]?.toList).length < UInt64.size
      rw [List.getElem?_eq_getElem hlt, List.length_append, List.length_replicate]
      exact Nat.lt_of_le_of_lt hlt hall
  inputScripts := by
    simp only [Commitment.copy, commitment, committedInputs, List.forall_mem_map]
    rintro ⟨input, i⟩ -
    split
    · exact hcode
    · exact (by decide : 0 < UInt64.size)
  outputScripts := by
    simp only [Commitment.copy, commitment, committedOutputs]
    cases (Coverage.selected hashType).outputs with
    | all => exact hsized.outputScripts
    | none => nofun
    | single =>
      intro output hmem
      rcases List.mem_append.1 hmem with hblank | hlast
      · rw [List.eq_of_mem_replicate hblank]
        decide
      · exact hsized.outputScripts output (List.mem_of_getElem? (Option.mem_toList.1 hlast))

/-- the scripts and the witnesses of the inputs are left out -/
theorem committedInputs_congr {tx tx' : Transaction}
    (h : tx.inputs.map (fun input => (input.source, input.sequence))
      = tx'.inputs.map (fun input => (input.source, input.sequence)))
    (index : Nat) (code : Bytes) (coverage : Coverage) :
    tx.committedInputs index code coverage = tx'.committedInputs index code coverage := by
  have hreduced : ∀ t : Transaction, t.committedInputs index code coverage =
      ((t.inputs.map fun input => (input.source, input.sequence)).zipIdx.filter
        fun p => p.2 = index || !coverage.anyoneCanPay).map fun p =>
          if p.2 = index then ⟨p.1.1, code, p.1.2⟩
          else ⟨p.1.1, [], if coverage.outputs = .all then p.1.2 else 0⟩ := by
    intro t
    rw [List.zipIdx_map, List.filter_map, List.map_map]
    rfl
  rw [hreduced, hreduced, h]

/-! ## The digest -/

instance (tx : Transaction) (index : Nat) (hashType : UInt32) : Decidable (tx.LacksOutput index hashType) :=
  inferInstanceAs (Decidable (_ ∧ _))

theorem signatureHash_eq (tx : Transaction) (index : Nat) (code : Bytes) (hashType : UInt32) :
    tx.signatureHash index code hashType =
      if tx.inputs.length ≤ index then .error .signedInput
      else if tx.LacksOutput index hashType then .ok unitDigest
      else .ok (Hash.doubleSha256 (tx.commitment index code hashType).encode) := by
  have hlacks : (Coverage.selected hashType).outputs = .single ∧ tx.outputs.length ≤ index ↔
      tx.LacksOutput index hashType := Iff.rfl
  simp only [signatureHash, Coverage.ofHashType_eq, hlacks]
  by_cases h : tx.LacksOutput index hashType
  · rw [if_pos h, if_pos h]
  · rw [if_neg h, if_neg h, signaturePreimage_eq h]

theorem signatureHash_congr {tx tx' : Transaction} (hversion : tx.version = tx'.version)
    (hlock : tx.lockTime = tx'.lockTime) (houtputs : tx.outputs = tx'.outputs)
    (hinputs : tx.inputs.map (fun input => (input.source, input.sequence))
      = tx'.inputs.map (fun input => (input.source, input.sequence)))
    (index : Nat) (code : Bytes) (hashType : UInt32) :
    tx.signatureHash index code hashType = tx'.signatureHash index code hashType := by
  have hlen : tx.inputs.length = tx'.inputs.length := by
    have h := congrArg List.length hinputs
    rwa [List.length_map, List.length_map] at h
  have hcommitment : tx.commitment index code hashType = tx'.commitment index code hashType := by
    rw [commitment, commitment, committedInputs_congr hinputs, committedOutputs, committedOutputs, hversion, hlock,
      houtputs]
  have hlacks : tx.LacksOutput index hashType ↔ tx'.LacksOutput index hashType := by
    rw [LacksOutput, LacksOutput, houtputs]
  simp only [signatureHash_eq, hlen, hcommitment, hlacks]

/-- **A signature commits to its commitment, exactly.** A digest is the hash of the signed bytes, and two calls sign the
same bytes if and only if they have the same commitment. Without the single output that is asked for the digest is the
number 1, and without the input there is none. The scripts and the witnesses of the inputs never matter. -/
theorem signature_commits (tx : Transaction) (index : Nat) (code : Bytes) (hashType : UInt32) :
    (tx.inputs.length ≤ index → tx.signatureHash index code hashType = .error .signedInput) ∧
    (index < tx.inputs.length → tx.LacksOutput index hashType →
      tx.signatureHash index code hashType = .ok (0x01 :: List.replicate 31 0x00)) ∧
    (index < tx.inputs.length → ¬ tx.LacksOutput index hashType →
      tx.signatureHash index code hashType = .ok (Hash.doubleSha256 (tx.signaturePreimage index code hashType)) ∧
      ∀ (tx' : Transaction) (index' : Nat) (code' : Bytes) (hashType' : UInt32),
        index' < tx'.inputs.length → ¬ tx'.LacksOutput index' hashType' →
        (tx.commitment index code hashType = tx'.commitment index' code' hashType' →
          tx.signatureHash index code hashType = tx'.signatureHash index' code' hashType') ∧
        (tx.Sized → code.length < UInt64.size → tx'.Sized → code'.length < UInt64.size →
          (tx.signaturePreimage index code hashType = tx'.signaturePreimage index' code' hashType' ↔
            tx.commitment index code hashType = tx'.commitment index' code' hashType'))) ∧
    (∀ tx' : Transaction, tx.version = tx'.version → tx.lockTime = tx'.lockTime → tx.outputs = tx'.outputs →
      tx.inputs.map (fun input => (input.source, input.sequence))
        = tx'.inputs.map (fun input => (input.source, input.sequence)) →
      tx.signatureHash index code hashType = tx'.signatureHash index code hashType) := by
  refine ⟨?_, ?_, ?_, ?_⟩
  · intro hge
    rw [signatureHash_eq, if_pos hge]
  · intro hlt hlacks
    rw [signatureHash_eq, if_neg (Nat.not_le.2 hlt), if_pos hlacks, unitDigest]
  · intro hlt hcovered
    have hdigest := signatureHash_eq tx index code hashType
    rw [if_neg (Nat.not_le.2 hlt), if_neg hcovered] at hdigest
    refine ⟨?_, ?_⟩
    · rw [hdigest, signaturePreimage_eq hcovered]
    · intro tx' index' code' hashType' hlt' hcovered'
      refine ⟨?_, ?_⟩
      · intro hcommitment
        rw [hdigest, hcommitment, signatureHash_eq, if_neg (Nat.not_le.2 hlt'), if_neg hcovered']
      · intro hsized hcode hsized' hcode'
        rw [signaturePreimage_eq hcovered, signaturePreimage_eq hcovered']
        constructor
        · exact Commitment.encode_inj (sized_commitment hsized hcode hcovered)
            (sized_commitment hsized' hcode' hcovered') (committedInputs_ne_nil hlt _ _)
            (committedInputs_ne_nil hlt' _ _)
        · exact congrArg Commitment.encode
  · intro tx' hversion hlock houtputs hinputs
    exact signatureHash_congr hversion hlock houtputs hinputs index code hashType

/-- a transaction with two inputs, the second with the given sequence, and one output -/
def twoInputs (sequence : UInt32) : Transaction where
  version := 1
  inputs :=
    [⟨⟨⟨List.replicate 32 0, rfl⟩, 0⟩, [0x51], 0xffffffff, []⟩, ⟨⟨⟨List.replicate 32 0, rfl⟩, 1⟩, [], sequence, []⟩]
  outputs := [⟨5000, []⟩]
  lockTime := 0

/-- the sequence of the other input is signed with all outputs and not with none -/
theorem signature_commits_sequence :
    (twoInputs 0).signaturePreimage 0 [0x51] 0x01 ≠ (twoInputs 1).signaturePreimage 0 [0x51] 0x01 ∧
      (twoInputs 0).signatureHash 0 [0x51] 0x02 = (twoInputs 1).signatureHash 0 [0x51] 0x02 ∧
      (twoInputs 0).signatureHash 1 [0x51] 0x83 = .ok (0x01 :: List.replicate 31 0x00) ∧
      (twoInputs 0).signatureHash 2 [0x51] 0x83 = .error .signedInput := by
  have hsized : (twoInputs 0).Sized ∧ (twoInputs 1).Sized :=
    ⟨⟨by decide, by decide, by decide, by decide⟩, ⟨by decide, by decide, by decide, by decide⟩⟩
  obtain ⟨-, -, hall, -⟩ := signature_commits (twoInputs 0) 0 [0x51] 0x01
  obtain ⟨-, -, hnone, -⟩ := signature_commits (twoInputs 0) 0 [0x51] 0x02
  obtain ⟨-, hsingle, -, -⟩ := signature_commits (twoInputs 0) 1 [0x51] 0x83
  obtain ⟨hmissing, -, -, -⟩ := signature_commits (twoInputs 0) 2 [0x51] 0x83
  refine ⟨?_, ?_, hsingle (by decide) (by decide), hmissing (by decide)⟩
  · have hiff := ((hall (by decide) (by decide)).2 (twoInputs 1) 0 [0x51] 0x01 (by decide) (by decide)).2
      hsized.1 (by decide) hsized.2 (by decide)
    rw [Ne, hiff]
    decide
  · exact ((hnone (by decide) (by decide)).2 (twoInputs 1) 0 [0x51] 0x02 (by decide) (by decide)).1 (by decide)

end Transaction

end BitcoinScript
