/-
Signatures in other forms. The two numbers of a signature can be written in many ways, and with (r, s) the pair
(r, n - s) verifies too, so from one signature anyone can make others. The check of a signature does not tell them
apart: it reads the numbers however they are written, and goes on with the lower of the two values of `s`.

Results:
- `Ecdsa.Signature.lowS_eq`: the value that verification works with is the smaller of `s` and `n - s`.
- `Der.parse?_write`: any two numbers below the group order have a written form.
- `Spend.checkSignature_eq`: a verdict depends on what the signature says, and on nothing else of its bytes.
- `signature_malleability`: so a verdict depends on `r`, on the smaller of `s` and `n - s`, and on the hash type, and is
  the one of verification with just these.
  - Two signatures with the same byte of the hash type, whose bodies are read as (r, s) and as (r, s) or (r, n - s),
    have the same verdict; and with every signature goes one of the other kind.
  - An empty signature, a body that cannot be read and a key that is none make the verdict false, and are no failure.
-/
import BitcoinScript.Proofs.FailureKind

namespace BitcoinScript

open Secp256k1 (n)

/-! ## The lower value -/

/-- the group order is odd, so of `s` and `n - s` exactly one is above half of it -/
theorem Secp256k1.n_mod_two : n % 2 = 1 := by
  decide

theorem Ecdsa.Signature.lowS_eq (signature : Signature) :
    signature.lowS = ⟨signature.r, min signature.s (n - signature.s)⟩ := by
  have hodd := Secp256k1.n_mod_two
  unfold lowS
  generalize n = order at *
  split
  · rw [Nat.min_eq_right (by omega)]
  · rw [Nat.min_eq_left (by omega)]

theorem Secp256k1.min_sub {s : Nat} (h : s < n) : min (n - s) (n - (n - s)) = min s (n - s) := by
  rw [Nat.sub_sub_self (Nat.le_of_lt h), Nat.min_comm]

theorem Secp256k1.sub_ne (s : Nat) (h : 0 < s) : n - s ≠ s := by
  have hodd := n_mod_two
  omega

/-! ## Written forms -/

theorem Bytes.toNatBE_reverse (bs : Bytes) : toNatBE bs.reverse = toNatLE bs := by
  unfold toNatBE
  rw [List.foldl_reverse]
  induction bs with
  | nil => rfl
  | cons b bs ih =>
    rw [List.foldr_cons, ih, toNatLE]
    omega

namespace Der

open Ecdsa (Signature)

/-- an integer in 33 bytes, with a zero before those of the number -/
def writeInteger (m : Nat) : Bytes :=
  0x02 :: 0x21 :: Bytes.ofNatBE 33 m

/-- a written form of a signature, and more bytes after it -/
def write (signature : Signature) (more : Bytes) : Bytes :=
  0x30 :: 0x46 :: (writeInteger signature.r ++ (writeInteger signature.s ++ more))

theorem integer?_write {m : Nat} (h : m < n) (rest : Bytes) : integer? (writeInteger m ++ rest) = some (m, rest) := by
  have hlength : (Bytes.ofNatBE 33 m).length = 33 := by rw [Bytes.ofNatBE, List.length_reverse, Bytes.length_ofNatLE]
  have hvalue : Bytes.toNatBE (Bytes.ofNatBE 33 m) = m := by
    have hcapacity : n < Bytes.capacity 33 := by decide
    rw [Bytes.ofNatBE, Bytes.toNatBE_reverse, Bytes.toNatLE_ofNatLE (Nat.lt_trans h hcapacity)]
  have hwidth : length? (0x21 :: (Bytes.ofNatBE 33 m ++ rest)) = some (33, Bytes.ofNatBE 33 m ++ rest) := rfl
  have htag : ¬ ((0x02 : UInt8) ≠ 0x02) := by decide
  rw [writeInteger, List.cons_append, List.cons_append, integer?, if_neg htag, hwidth]
  simp only [Option.bind_eq_bind, Option.bind_some, Bytes.split?_append hlength, hvalue]

/-- what is read of a written form is the signature -/
theorem parse?_write (signature : Signature) (hr : signature.r < n) (hs : signature.s < n) (more : Bytes) :
    parse? (write signature more) = some signature := by
  let integers := writeInteger signature.r ++ (writeInteger signature.s ++ more)
  have hsequence : sequence? (write signature more) = some integers := rfl
  simp only [parse?, hsequence, integers, Option.bind_eq_bind, Option.bind_some, integer?_write hr, integer?_write hs,
    hr, hs, and_self, if_true]

theorem lt_of_parse? {body : Bytes} {signature : Signature} (h : parse? body = some signature) :
    signature.r < n ∧ signature.s < n := by
  obtain ⟨rest, -, h⟩ := Option.bind_eq_some_iff.1 h
  obtain ⟨⟨r, rest⟩, -, h⟩ := Option.bind_eq_some_iff.1 h
  obtain ⟨⟨s, rest⟩, -, h⟩ := Option.bind_eq_some_iff.1 h
  simp only at h
  split at h <;> cases h
  · assumption
  · decide

end Der

/-! ## The verdict -/

/-- what a signature says: the numbers in its body, with the smaller of `s` and `n - s`, and the byte of its hash
type -/
def signatureContent? (signature : Bytes) : Option (Ecdsa.Signature × UInt8) :=
  signature.getLast?.bind fun byte =>
    (Der.parse? signature.dropLast).map fun pair => (⟨pair.r, min pair.s (n - pair.s)⟩, byte)

theorem signatureContent?_concat (body : Bytes) (byte : UInt8) :
    signatureContent? (body ++ [byte]) =
      (Der.parse? body).map fun pair => (⟨pair.r, min pair.s (n - pair.s)⟩, byte) := by
  rw [signatureContent?, List.getLast?_concat, List.dropLast_concat, Option.bind_some]

/-- a verdict depends on what the signature says, and on nothing else of its bytes -/
theorem Spend.checkSignature_eq (spend : Spend) (signature key code : Bytes) :
    spend.checkSignature signature key code =
      match PublicKey.parse? key, signatureContent? signature with
      | some point, some (pair, byte) =>
        (spend.tx.signatureHash spend.index code byte.toUInt32).map fun digest =>
          Ecdsa.verify point (Bytes.toNatBE digest) pair
      | _, _ => .ok false := by
  unfold checkSignature splitHashType? signatureContent?
  cases PublicKey.parse? key with
  | none => rfl
  | some point =>
    cases signature.getLast? with
    | none => rfl
    | some byte =>
      simp only [Option.map_some, Option.bind_some]
      cases Der.parse? signature.dropLast with
      | none => rfl
      | some pair => simp only [Option.map_some, Ecdsa.Signature.lowS_eq]

theorem Spend.checkSignature_of_none (spend : Spend) {signature key : Bytes} (code : Bytes)
    (h : PublicKey.parse? key = none ∨ signatureContent? signature = none) :
    spend.checkSignature signature key code = .ok false := by
  rw [checkSignature_eq]
  rcases h with h | h
  · rw [h]
  · rw [h]
    cases PublicKey.parse? key <;> rfl

/-- **Other forms of a signature have its verdict.** The verdict on a signature depends on `r`, on the smaller of `s`
and `n - s`, and on the hash type, and on nothing else of its bytes. What cannot be read, as a signature or as a key,
makes it false, and is no failure. -/
theorem signature_malleability (spend : Spend) (key code : Bytes) :
    (∀ signature signature', signatureContent? signature = signatureContent? signature' →
      spend.checkSignature signature key code = spend.checkSignature signature' key code) ∧
    (∀ body point r s, Der.parse? body = some ⟨r, s⟩ → PublicKey.parse? key = some point → ∀ byte : UInt8,
      ∃ digest, spend.tx.signatureHash spend.index code byte.toUInt32 = .ok digest ∧
        spend.checkSignature (body ++ [byte]) key code =
          .ok (Ecdsa.verify point (Bytes.toNatBE digest) ⟨r, min s (n - s)⟩)) ∧
    (∀ body body' r s s', Der.parse? body = some ⟨r, s⟩ → Der.parse? body' = some ⟨r, s'⟩ → 0 < s → s < n →
      s' = s ∨ s' = n - s → ∀ byte : UInt8,
        spend.checkSignature (body ++ [byte]) key code = spend.checkSignature (body' ++ [byte]) key code) ∧
    (∀ body r s, Der.parse? body = some ⟨r, s⟩ → 0 < s → ∃ body', Der.parse? body' = some ⟨r, n - s⟩ ∧ n - s ≠ s ∧
      ∀ byte : UInt8,
        spend.checkSignature (body ++ [byte]) key code = spend.checkSignature (body' ++ [byte]) key code) ∧
    spend.checkSignature [] key code = .ok false ∧
    (∀ body, Der.parse? body = none → ∀ byte : UInt8, spend.checkSignature (body ++ [byte]) key code = .ok false) ∧
    (PublicKey.parse? key = none → ∀ signature, spend.checkSignature signature key code = .ok false) := by
  have hcontent : ∀ signature signature', signatureContent? signature = signatureContent? signature' →
      spend.checkSignature signature key code = spend.checkSignature signature' key code := by
    intro signature signature' h
    rw [Spend.checkSignature_eq, Spend.checkSignature_eq, h]
  have htwin : ∀ body body' r s s', Der.parse? body = some ⟨r, s⟩ → Der.parse? body' = some ⟨r, s'⟩ → s < n →
      s' = s ∨ s' = n - s → ∀ byte : UInt8,
        spend.checkSignature (body ++ [byte]) key code = spend.checkSignature (body' ++ [byte]) key code := by
    intro body body' r s s' h h' hs hs' byte
    apply hcontent
    rw [signatureContent?_concat, signatureContent?_concat, h, h', Option.map_some, Option.map_some]
    rcases hs' with rfl | rfl
    · rfl
    · rw [Secp256k1.min_sub hs]
  refine ⟨hcontent, ?_, ?_, ?_, ?_, ?_, ?_⟩
  · intro body point r s h hkey byte
    obtain ⟨digest, hdigest⟩ := spend.exists_signatureHash code byte.toUInt32
    refine ⟨digest, hdigest, ?_⟩
    rw [Spend.checkSignature_eq, hkey, signatureContent?_concat, h, Option.map_some]
    simp only [hdigest]
    rfl
  · intro body body' r s s' h h' _ hs hs' byte
    exact htwin body body' r s s' h h' hs hs' byte
  · intro body r s h hpos
    obtain ⟨hr, hs⟩ := Der.lt_of_parse? h
    have hlt : n - s < n := by
      have hn : 0 < n := by decide
      exact Nat.sub_lt hn hpos
    have hwritten : Der.parse? (Der.write ⟨r, n - s⟩ []) = some ⟨r, n - s⟩ := Der.parse?_write ⟨r, n - s⟩ hr hlt []
    exact ⟨_, hwritten, Secp256k1.sub_ne s hpos, htwin body _ r s (n - s) h hwritten hs (.inr rfl)⟩
  · exact spend.checkSignature_of_none code (.inr rfl)
  · intro body h byte
    refine spend.checkSignature_of_none code (.inr ?_)
    rw [signatureContent?_concat, h, Option.map_none]
  · intro hkey signature
    exact spend.checkSignature_of_none code (.inl hkey)

/-- the numbers 1 and 2 in as few bytes as possible, and 1 and the order less 2 in as many as are usual, with one more
byte after them -/
theorem signature_malleability_twin :
    let input : Input := ⟨⟨⟨List.replicate 32 0, rfl⟩, 0⟩, [], 0, []⟩
    let spend : Spend := ⟨⟨1, [input], [], 0⟩, 0, Nat.zero_lt_one⟩
    let key : Bytes := 0x02 :: Bytes.ofNatBE 32 Secp256k1.generator.x
    let body : Bytes := [0x30, 0x06, 0x02, 0x01, 0x01, 0x02, 0x01, 0x02]
    let body' : Bytes := Der.write ⟨1, n - 2⟩ [0xff]
    (∃ point, PublicKey.parse? key = some point ∧ ∃ digest,
      spend.checkSignature (body ++ [0x01]) key [0xac] =
        .ok (Ecdsa.verify point (Bytes.toNatBE digest) ⟨1, min 2 (n - 2)⟩)) ∧
      spend.checkSignature (body ++ [0x01]) key [0xac] = spend.checkSignature (body' ++ [0x01]) key [0xac] := by
  intro input spend key body body'
  have hbody : Der.parse? body = some ⟨1, 2⟩ := by decide +kernel
  have hbody' : Der.parse? body' = some ⟨1, n - 2⟩ := Der.parse?_write ⟨1, n - 2⟩ (by decide) (by decide) [0xff]
  have hkey : (PublicKey.parse? key).isSome := by decide +kernel
  obtain ⟨point, hpoint⟩ := Option.isSome_iff_exists.1 hkey
  obtain ⟨-, hverdict, htwin, -⟩ := signature_malleability spend key [0xac]
  obtain ⟨digest, -, hcheck⟩ := hverdict body point 1 2 hbody hpoint 0x01
  exact ⟨⟨point, hpoint, digest, hcheck⟩,
    htwin body body' 1 2 (n - 2) hbody hbody' (by decide) (by decide) (.inr rfl) 0x01⟩

end BitcoinScript
