/-
Checks of several signatures. The keys are walked through once, and each is given to the next signature that it
verifies. That this finds keys for all signatures whenever these can be given keys in order is the argument of exchange:
a key that verifies the next signature may always be given to it.

Results:
- `unmatched_eq_ok`: no signature is left without a key if and only if the signatures have keys in order.
- `run_matchKeys_counted`, `run_performMany_counted`: each key is asked for at most one verdict.
- `execute_checkMany`: the opcode ends by whether the signatures have keys in order.
- `ManyOperands.length_keys_le`, `ManyOperands.take_of_keyCount`: the limit on the keys in numbers.
- `multisig_matches`: let a number of keys, the keys, a number of signatures, the signatures and one more item lie on
  top of the stack;
  - the opcode takes all these items off, and pushes whether the signatures verify by keys that are chosen by an
    increasing map of their places, each for the one script code of all the signatures;
  - its verifying form takes them off and pushes nothing if there is such a map, and else fails and takes off nothing;
  - neither asks for an item, a key or a signature that is not there, or for more verdicts than there are keys.
-/
import Mathlib.Data.List.NodupEquivFin
import BitcoinScript.Proofs.FailureKind
import BitcoinScript.Proofs.Operation

namespace BitcoinScript

/-! ## Keys in order -/

/-- the signatures verify by keys of their own, in the order of these -/
def Matches (check : Verdict) (signatures keys : List Bytes) : Prop :=
  List.SublistForall₂ (fun signature key => check signature key = .ok true) signatures keys

namespace Matches

variable {check : Verdict} {signature key : Bytes} {signatures keys : List Bytes}

theorem length_le (h : Matches check signatures keys) : signatures.length ≤ keys.length := by
  obtain ⟨chosen, hall, hsub⟩ := List.sublistForall₂_iff.1 h
  rw [hall.length_eq]
  exact hsub.length_le

theorem tail (h : Matches check (signature :: signatures) (key :: keys)) : Matches check signatures keys := by
  obtain ⟨chosen, hall, hsub⟩ := List.sublistForall₂_iff.1 h
  cases hall with
  | cons _ hall => exact List.sublistForall₂_iff.2 ⟨_, hall, hsub.of_cons_cons⟩

/-- the exchange: a key that verifies the next signature may be given to it, since the key that this one has otherwise
comes later, and is then free -/
theorem cons_iff_of_valid (hv : check signature key = .ok true) :
    Matches check (signature :: signatures) (key :: keys) ↔ Matches check signatures keys :=
  ⟨tail, .cons hv⟩

theorem cons_iff_of_invalid (hv : check signature key = .ok false) :
    Matches check (signature :: signatures) (key :: keys) ↔ Matches check (signature :: signatures) keys := by
  refine ⟨?_, .cons_right⟩
  intro h
  cases h with
  | cons hvalid _ => cases hv.symm.trans hvalid
  | cons_right h => exact h

theorem reverse (h : Matches check signatures keys) : Matches check signatures.reverse keys.reverse := by
  obtain ⟨chosen, hall, hsub⟩ := List.sublistForall₂_iff.1 h
  exact List.sublistForall₂_iff.2 ⟨chosen.reverse, List.forall₂_reverse_iff.2 hall, hsub.reverse⟩

theorem reverse_iff : Matches check signatures.reverse keys.reverse ↔ Matches check signatures keys := by
  refine ⟨?_, reverse⟩
  intro h
  have h' := h.reverse
  rwa [List.reverse_reverse, List.reverse_reverse] at h'

/-- keys in order are an increasing choice of their places -/
theorem iff_strictMono :
    Matches check signatures keys ↔
      ∃ f : Fin signatures.length → Fin keys.length,
        StrictMono f ∧ ∀ i, check signatures[i] keys[f i] = .ok true := by
  rw [Matches, List.sublistForall₂_iff]
  constructor
  · rintro ⟨chosen, hall, hsub⟩
    obtain ⟨f, hf⟩ := List.sublist_iff_exists_fin_orderEmbedding_get_eq.1 hsub
    obtain ⟨hlen, hget⟩ := List.forall₂_iff_get.1 hall
    refine ⟨fun i => f (i.cast hlen), fun i j hij => f.strictMono hij, ?_⟩
    intro i
    have hi : chosen[i] = keys[f (i.cast hlen)] := hf (i.cast hlen)
    rw [← hi]
    exact hget i i.isLt _
  · rintro ⟨f, hmono, hvalid⟩
    have hlen : (List.ofFn fun i => keys[f i]).length = signatures.length := List.length_ofFn
    refine ⟨List.ofFn fun i => keys[f i], ?_, ?_⟩
    · refine List.forall₂_iff_get.2 ⟨hlen.symm, ?_⟩
      intro i hi _
      rw [List.get_ofFn]
      exact hvalid ⟨i, hi⟩
    · let places : Fin (List.ofFn fun i => keys[f i]).length ↪o Fin keys.length :=
        OrderEmbedding.ofStrictMono (fun i => f (i.cast hlen)) (fun _ _ hij => hmono hij)
      refine List.sublist_iff_exists_fin_orderEmbedding_get_eq.2 ⟨places, ?_⟩
      intro i
      rw [List.get_ofFn]
      rfl

end Matches

/-- the walk through the keys leaves no signature if and only if the signatures have keys in order -/
theorem unmatched_eq_ok {check : Verdict} (hc : ∀ signature key, ∃ valid, check signature key = .ok valid)
    (signatures keys : List Bytes) :
    ∃ left, unmatched check signatures keys = .ok left ∧ (left.isEmpty ↔ Matches check signatures keys) := by
  induction keys generalizing signatures with
  | nil =>
    cases signatures with
    | nil => exact ⟨[], rfl, iff_of_true rfl List.SublistForall₂.nil⟩
    | cons signature signatures =>
      refine ⟨signature :: signatures, rfl, iff_of_false nofun fun h => ?_⟩
      exact absurd h.length_le (Nat.not_succ_le_zero _)
  | cons key keys ih =>
    cases signatures with
    | nil => exact ⟨[], rfl, iff_of_true rfl List.SublistForall₂.nil⟩
    | cons signature signatures =>
      obtain ⟨valid, hv⟩ := hc signature key
      obtain ⟨later, hlater⟩ : ∃ later, later = if valid then signatures else signature :: signatures := ⟨_, rfl⟩
      have hwalk : unmatched check (signature :: signatures) (key :: keys) =
          if keys.length < later.length then .ok later else unmatched check later keys := by
        rw [unmatched, hv, hlater]
        rfl
      have hmatches : Matches check (signature :: signatures) (key :: keys) ↔ Matches check later keys := by
        rw [hlater]
        cases valid with
        | true => exact Matches.cons_iff_of_valid hv
        | false => exact Matches.cons_iff_of_invalid hv
      rw [hwalk, hmatches]
      by_cases hf : keys.length < later.length
      · have hne : ¬ later.isEmpty := by
          rw [List.isEmpty_iff_length_eq_zero]
          omega
        rw [if_pos hf]
        exact ⟨later, rfl, iff_of_false hne fun h => absurd h.length_le (Nat.not_le.2 hf)⟩
      · rw [if_neg hf]
        exact ih later

/-! ## How many verdicts -/

/-- an effect on the state and on a number of calls -/
abbrev Counted (α : Type) : Type := EStateM Stop (State × Nat) α

namespace Counted

/-- the end of an effect, after some calls -/
def after {α : Type} (calls : Nat) : EStateM.Result Stop State α → EStateM.Result Stop (State × Nat) α
  | .ok a s => .ok a (s, calls)
  | .error stop s => .error stop (s, calls)

/-- an effect without calls -/
def uncalled {α : Type} (x : Effect α) : Counted α :=
  fun (s, calls) => after calls (x.run s)

instance : MonadLift Effect Counted := ⟨uncalled⟩

/-- a verdict, which is one call -/
def call (check : Verdict) (signature key : Bytes) : Counted Bool := do
  modify fun (s, calls) => (s, calls + 1)
  Effect.attempt (check signature key)

variable {α : Type} {s : State} {calls : Nat}

@[simp] theorem run_liftM (x : Effect α) : (liftM x : Counted α).run (s, calls) = after calls (x.run s) := rfl

@[simp] theorem run_call (check : Verdict) (signature key : Bytes) :
    (call check signature key).run (s, calls) = after (calls + 1) ((Effect.attempt (check signature key)).run s) := rfl

end Counted

open Effect Counted

/-- the walk through the keys asks for at most one verdict on each key, and the count changes nothing of what it does -/
theorem run_matchKeys_counted (check : Verdict) (signatures keys : List Bytes) (matched key : Nat) (s : State)
    (calls : Nat) :
    ∃ asked ≤ keys.length - key,
      (matchKeys (call check) signatures keys matched key).run (s, calls) =
        after (calls + asked)
          ((matchKeys (fun signature key => attempt (check signature key)) signatures keys matched key).run s) := by
  induction hn : keys.length - key generalizing matched key calls with
  | zero =>
    refine ⟨0, Nat.le_refl 0, ?_⟩
    rw [matchKeys, matchKeys]
    by_cases hlt : matched < signatures.length
    · have hk : ¬ key < keys.length := by omega
      rw [if_pos hlt, if_pos hlt]
      simp only [dif_neg hk, List.getElem?_eq_getElem hlt]
      rfl
    · rw [if_neg hlt, if_neg hlt]
      rfl
  | succ n ih =>
    rw [matchKeys, matchKeys]
    by_cases hlt : matched < signatures.length
    · have hk : key < keys.length := by omega
      rw [if_pos hlt, if_pos hlt]
      simp only [dif_pos hk, List.getElem?_eq_getElem hlt, expect, EStateM.run_bind, run_liftM, liftM_eq,
        EStateM.run_pure, after, run_call]
      cases check signatures[matched] keys[key] with
      | error failure => exact ⟨1, by omega, rfl⟩
      | ok valid =>
        simp only [run_attempt_ok]
        generalize (if valid then matched + 1 else matched) = matched'
        by_cases hf : keys.length - (key + 1) < signatures.length - matched'
        · rw [if_pos hf, if_pos hf]
          exact ⟨1, by omega, rfl⟩
        · obtain ⟨asked, hle, he⟩ := ih matched' (key + 1) (calls + 1) (by omega)
          rw [if_neg hf, if_neg hf, he, Nat.add_assoc]
          exact ⟨1 + asked, by omega, rfl⟩
    · rw [if_neg hlt, if_neg hlt]
      exact ⟨0, Nat.zero_le _, rfl⟩

theorem run_performMany_counted {strict : Bool} {s : State} {o : ManyOperands} (check : List Bytes → Verdict)
    (verify : Bool) (ho : ManyOperands.take strict s.main = .ok o) :
    ∃ asked ≤ o.keys.length,
      (SignatureOp.performMany strict (fun signatures => call (check signatures)) verify).run (s, 0) =
        after asked (((SignatureOp.many verify).perform strict check).run s) := by
  obtain ⟨asked, hle, he⟩ := run_matchKeys_counted (check o.signatures) o.signatures o.keys 0 0 s 0
  refine ⟨asked, hle, ?_⟩
  simp only [SignatureOp.perform, SignatureOp.performMany, EStateM.run_bind, run_liftM, liftM_eq,
    SignatureOp.run_operandCounts_eq_ok ho, SignatureOp.run_topMany_keys ho, SignatureOp.run_topMany_signatures ho,
    after, he, Nat.zero_add]
  cases (matchKeys (fun signature key => attempt (check o.signatures signature key)) o.signatures o.keys 0 0).run s with
  | error stop s' => rfl
  | ok result s' =>
    cases verify with
    | false =>
      simp only [Bool.false_eq_true, if_false, EStateM.run_bind, run_liftM]
      cases (popMany (o.keys.length + o.signatures.length + 3)).run s' <;> rfl
    | true =>
      simp only [if_true]
      cases result.2 with
      | false => rfl
      | true =>
        simp only [if_true, EStateM.run_bind, run_liftM]
        cases (popMany (o.keys.length + o.signatures.length + 3)).run s' <;> rfl

/-! ## The opcodes -/

/-- the opcode that checks several signatures; with `verify`, it fails instead of pushing a false item -/
def Opcode.checkMany (verify : Bool) : Opcode :=
  ⟨if verify then 0xaf else 0xae⟩

@[simp] theorem Opcode.instruction?_checkMany (verify : Bool) :
    (checkMany verify).instruction? = some (.signature (.many verify)) := by
  cases verify <;> rfl

theorem Context.check_reverse (ctx : Context) (spend : Spend) (start : Nat) (signatures : List Bytes) :
    ctx.check spend start signatures.reverse = ctx.check spend start signatures := by
  funext signature key
  rw [check, check, Program.scriptCode_congr fun _ => List.mem_reverse]

/-- a check of several signatures ends by whether these have keys in order -/
theorem execute_checkMany {ctx : Context} {spend : Spend} {s : State} {o : ManyOperands}
    (hspend : ctx.spend = some spend) (hx : s.executing) (hsize : s.items ≤ stackLimit)
    (ho : ManyOperands.take ctx.strict s.main = .ok o) :
    ∃ left, (left.isEmpty ↔ Matches (ctx.check spend s.codeStart o.signatures) o.signatures o.keys) ∧
      ∀ verify, execute ctx (.code (.checkMany verify)) s =
        match SignatureOp.concludeMany verify o left with
        | .ok (main, action) => ({ s with main }, .ok action)
        | .error failure => (s, .error (.within (Opcode.checkMany verify).name failure)) := by
  obtain ⟨left, hleft, hmatches⟩ :=
    unmatched_eq_ok (ctx.check_eq_ok spend s.codeStart o.signatures) o.signatures o.keys
  refine ⟨left, hmatches, fun verify => ?_⟩
  have hlen : o.rest.length + 3 ≤ s.main.length := ManyOperands.length_rest_le ho
  have happly : SignatureOp.apply ctx.strict (ctx.check spend s.codeStart) (.many verify) s.main =
      SignatureOp.concludeMany verify o left := by
    rw [SignatureOp.apply, SignatureOp.applyMany, ho]
    show unmatched (ctx.check spend s.codeStart o.signatures) o.signatures o.keys >>= _ = _
    rw [hleft]
    rfl
  have hdepth : (SignatureOp.many verify).depth ≤ s.main.length := Nat.le_trans (Nat.le_add_left 1 _) hlen
  rw [execute_signature_eq (Opcode.instruction?_checkMany verify) hspend hx hdepth, happly]
  -- there is room for what is pushed, since the counts are gone
  have hroom : ∀ main : Stack, main.length ≤ o.rest.length + 1 → { s with main : State }.items ≤ stackLimit := by
    intro main hmainLen
    have hitems : main.length + s.alt.length ≤ s.main.length + s.alt.length := by omega
    exact Nat.le_trans hitems hsize
  unfold SignatureOp.concludeMany
  cases verify with
  | false => exact State.sized_of_le (hroom _ (Nat.le_refl _)) _
  | true =>
    cases left.isEmpty with
    | false => rfl
    | true => exact State.sized_of_le (hroom _ (Nat.le_succ _)) _

/-- a check of several signatures takes at most twenty keys -/
theorem ManyOperands.length_keys_le {strict : Bool} {main : Stack} {o : ManyOperands}
    (h : ManyOperands.take strict main = .ok o) : o.keys.length ≤ 20 := by
  obtain ⟨_, _, _, -, -, -, hlimit, -⟩ := ManyOperands.take_eq_ok_iff.1 h
  exact hlimit

/-- and any other number of them is refused -/
theorem ManyOperands.take_of_keyCount {strict : Bool} {keyCount : Bytes} {n : Int}
    (h : Number.read keyCount operandLimit strict = .ok n) (hn : n < 0 ∨ 20 < n) (below : Stack) :
    ManyOperands.take strict (keyCount :: below) = .error (.keyCount n) := by
  rw [ManyOperands.take, h]
  exact if_pos hn

/-- **A check of several signatures finds keys for them in order, if there are any.** The opcode takes its operands off
and pushes whether the signatures verify by keys chosen by an increasing map of their places; its verifying form fails
if there is no such map. Neither asks for more verdicts than there are keys. -/
theorem multisig_matches (ctx : Context) (spend : Spend) (s : State) (keyCount signatureCount unused : Bytes)
    (signatures keys : List Bytes) (rest : Stack) (hspend : ctx.spend = some spend) (hx : s.executing)
    (hsize : s.items ≤ stackLimit)
    (hmain : s.main = keyCount :: (keys.reverse ++ signatureCount :: (signatures.reverse ++ unused :: rest)))
    (hkeys : Number.read keyCount operandLimit ctx.strict = .ok (keys.length : Int))
    (hsignatures : Number.read signatureCount operandLimit ctx.strict = .ok (signatures.length : Int))
    (hle : signatures.length ≤ keys.length) (hlimit : keys.length ≤ keyLimit) :
    let code := ctx.program.scriptCode s.codeStart signatures
    let matching := ∃ f : Fin signatures.length → Fin keys.length,
      StrictMono f ∧ ∀ i, spend.checkSignature signatures[i] keys[f i] code = .ok true
    (∃ success action, (success = true ↔ matching) ∧
      execute ctx (.code (.checkMany false)) s = ({ s with main := Number.ofBool success :: rest }, .ok action)) ∧
    (matching → ∃ action, execute ctx (.code (.checkMany true)) s = ({ s with main := rest }, .ok action)) ∧
    (¬ matching → ∃ failure, failure.kind = .verifyFailed ∧
      execute ctx (.code (.checkMany true)) s = (s, .error failure)) ∧
    ∀ verify,
      (∀ s', ((Operation.code (.checkMany verify)).perform ctx).run s ≠ .error .outOfRange s') ∧
      ∃ asked ≤ keys.length,
        (SignatureOp.performMany ctx.strict (fun taken => call (ctx.check spend s.codeStart taken)) verify).run (s, 0) =
          after asked (((SignatureOp.many verify).perform ctx.strict (ctx.check spend s.codeStart)).run s) := by
  intro code matching
  let o : ManyOperands := ⟨keys.reverse, signatures.reverse, rest⟩
  have ho : ManyOperands.take ctx.strict s.main = .ok o := by
    refine ManyOperands.take_eq_ok_iff.2 ⟨keyCount, signatureCount, unused, hmain, ?_⟩
    simp only [o, List.length_reverse]
    exact ⟨hkeys, hsignatures, hlimit, hle⟩
  obtain ⟨left, hmatches, hexecute⟩ := execute_checkMany hspend hx hsize ho
  have hmatching : left.isEmpty ↔ matching := by
    rw [hmatches, Context.check_reverse, Matches.reverse_iff, Matches.iff_strictMono]
    rfl
  let tally : Matching := ⟨o.signatures.length - left.length, o.signatures.length, o.keys.length⟩
  refine ⟨?_, ?_, ?_, ?_⟩
  · exact ⟨left.isEmpty, .checkedMany tally left.isEmpty, hmatching, hexecute false⟩
  · intro hm
    refine ⟨.verifiedMany tally, ?_⟩
    rw [hexecute, SignatureOp.concludeMany, hmatching.2 hm]
    rfl
  · intro hm
    have hfalse : left.isEmpty = false := Bool.eq_false_iff.2 fun he => hm (hmatching.1 he)
    refine ⟨.within (Opcode.checkMany true).name (.unmatchedSignatures tally), rfl, ?_⟩
    rw [hexecute, SignatureOp.concludeMany, hfalse]
    rfl
  · intro verify
    refine ⟨(Operation.code (.checkMany verify)).run_perform_ne ctx s, ?_⟩
    obtain ⟨asked, hle, hasked⟩ := run_performMany_counted (ctx.check spend s.codeStart) verify ho
    refine ⟨asked, ?_, hasked⟩
    rwa [List.length_reverse] at hle

/-- one empty signature for two keys that are none: a false item takes the place of the six -/
theorem multisig_matches_empty :
    let input : Input := ⟨⟨⟨List.replicate 32 0, rfl⟩, 0⟩, [], 0, []⟩
    let spend : Spend := ⟨⟨1, [input], [], 0⟩, 0, Nat.zero_lt_one⟩
    let s : State := ⟨[[2], [3], [4], [1], [], [], [7]], [], .none, 0, 0⟩
    ∃ action,
      execute ⟨⟨[]⟩, some spend, true⟩ (.code (.checkMany false)) s = ({ s with main := [[], [7]] }, .ok action) := by
  intro input spend s
  obtain ⟨⟨success, action, hsuccess, he⟩, -⟩ := multisig_matches ⟨⟨[]⟩, some spend, true⟩ spend s [2] [1] [] [[]]
    [[4], [3]] [[7]] rfl rfl (by decide) rfl rfl rfl (by decide) (by decide)
  have hfalse : ∀ key code, spend.checkSignature [] key code = .ok false := by
    intro key code
    rw [Spend.checkSignature]
    cases PublicKey.parse? key <;> rfl
  refine ⟨action, ?_⟩
  cases success with
  | false => exact he
  | true =>
    obtain ⟨f, -, hvalid⟩ := hsuccess.1 rfl
    cases (hfalse _ _).symm.trans (hvalid 0)

end BitcoinScript
