/-
The instructions that check signatures. How a signature is checked is a parameter: `check signatures signature key` is
the verdict on one signature by one key, given all the signatures of the instruction, because these are left out of what
is signed.

A check of several signatures walks once through the keys, from the last to the first, and gives each key the last
signature that has none yet. It stops as soon as there are more such signatures than keys.
-/
import BitcoinScript.Machine.Action
import BitcoinScript.Stack

namespace BitcoinScript

/-- the verdict on one signature by one key -/
abbrev Verdict := (signature key : Bytes) → Except Failure Bool

/-- the signatures without a key when the walk through the keys stops; a verdict may have any effect, such as failing -/
def unmatched {m : Type → Type} [Monad m] (check : (signature key : Bytes) → m Bool) :
    (signatures keys : List Bytes) → m (List Bytes)
  | [], _ => return []
  | signatures, [] => return signatures
  | signature :: signatures, key :: keys => do
    let left := if ← check signature key then signatures else signature :: signatures
    if keys.length < left.length then return left
    else unmatched check left keys

/-- the operands of a check of several signatures, each list with its top item first, and the stack below them -/
structure ManyOperands where
  keys : List Bytes
  signatures : List Bytes
  rest : Stack

/-- takes the operands off a stack: the number of keys, the keys, the number of signatures, the signatures, and one more
item that is not used -/
def ManyOperands.take (strict : Bool) : Stack → Except Failure ManyOperands
  | [] => .error (.tooFewItems 1 0)
  | keyCount :: below => do
    let n ← Number.read keyCount operandLimit strict
    if n < 0 ∨ keyLimit < n then .error (.keyCount n)
    else
      let found := below.length + 1
      match below.drop n.toNat with
      | [] => .error (.tooFewItems (n.toNat + 2) found)
      | signatureCount :: lower => do
        let m ← Number.read signatureCount operandLimit strict
        if m < 0 ∨ n < m then .error (.signatureCount m n.toNat)
        else if lower.length < m.toNat + 1 then .error (.tooFewItems (n.toNat + m.toNat + 3) found)
        else return ⟨below.take n.toNat, lower.take m.toNat, lower.drop (m.toNat + 1)⟩

/-- the operands that are taken are these: a number of keys, below it that many keys, a number of signatures that is not
greater, below it that many signatures, and one more item -/
theorem ManyOperands.take_eq_ok_iff {strict : Bool} {main : Stack} {o : ManyOperands} :
    ManyOperands.take strict main = .ok o ↔
      ∃ keyCount signatureCount unused,
        main = keyCount :: (o.keys ++ signatureCount :: (o.signatures ++ unused :: o.rest)) ∧
          Number.read keyCount operandLimit strict = .ok (o.keys.length : Int) ∧
          Number.read signatureCount operandLimit strict = .ok (o.signatures.length : Int) ∧
          o.keys.length ≤ keyLimit ∧ o.signatures.length ≤ o.keys.length := by
  constructor
  · intro h
    cases main with
    | nil => cases h
    | cons keyCount below =>
      obtain ⟨n, hn, h⟩ := exists_of_bind_eq_ok h
      split at h
      · cases h
      · cases hd : below.drop n.toNat with
        | nil =>
          rw [hd] at h
          cases h
        | cons signatureCount lower =>
          rw [hd] at h
          obtain ⟨m, hm, h⟩ := exists_of_bind_eq_ok h
          split at h
          · cases h
          · split at h
            · cases h
            · rename_i hkeys hsignatures hlower
              cases h
              have hlt : n.toNat < below.length := by
                have := congrArg List.length hd
                rw [List.length_drop, List.length_cons] at this
                omega
              have hlen : (below.take n.toNat).length = n.toNat := List.length_take_of_le (Nat.le_of_lt hlt)
              have hlen' : (lower.take m.toNat).length = m.toNat := List.length_take_of_le (by omega)
              refine ⟨keyCount, signatureCount, lower[m.toNat], ?_, ?_, ?_, ?_, ?_⟩
              · rw [← List.drop_eq_getElem_cons, List.take_append_drop, ← hd, List.take_append_drop]
              · rw [hlen, hn, Int.toNat_of_nonneg (by omega)]
              · rw [hlen', hm, Int.toNat_of_nonneg (by omega)]
              · rw [hlen]
                omega
              · rw [hlen, hlen']
                omega
  · rintro ⟨keyCount, signatureCount, unused, rfl, hn, hm, hlimit, hle⟩
    have hkeys : ¬ ((o.keys.length : Int) < 0 ∨ (keyLimit : Int) < o.keys.length) := by omega
    have hsignatures : ¬ ((o.signatures.length : Int) < 0 ∨ (o.keys.length : Int) < o.signatures.length) := by omega
    have hlower : ¬ (o.signatures ++ unused :: o.rest).length < o.signatures.length + 1 := by
      rw [List.length_append, List.length_cons]
      omega
    simp only [take, hn, bind, Except.bind, if_neg hkeys, Int.toNat_natCast, List.drop_left, hm, if_neg hsignatures,
      if_neg hlower, List.take_left]
    rw [List.drop_length_add_append]
    rfl

theorem ManyOperands.length_rest_le {strict : Bool} {main : Stack} {o : ManyOperands}
    (h : ManyOperands.take strict main = .ok o) : o.rest.length + 3 ≤ main.length := by
  obtain ⟨keyCount, signatureCount, unused, hmain, -⟩ := take_eq_ok_iff.1 h
  simp only [hmain, List.length_cons, List.length_append]
  omega

namespace SignatureOp

/-- checks one signature -/
def applyOne (check : List Bytes → Verdict) (verify : Bool) : Stack → Except Failure (Stack × Action)
  | key :: signature :: s => do
    let valid ← check [signature] signature key
    if !verify then return (Stack.pushBool s valid, .checked key valid)
    else if valid then return (s, .verifiedSignature key)
    else .error (.badSignature key)
  | s => .error (.tooFewItems 2 s.length)

/-- how a check of several signatures ends when the signatures `left` have found no key -/
def concludeMany (verify : Bool) (o : ManyOperands) (left : List Bytes) : Except Failure (Stack × Action) :=
  let success := left.isEmpty
  let matching : Matching := ⟨o.signatures.length - left.length, o.signatures.length, o.keys.length⟩
  if !verify then .ok (o.rest.pushBool success, .checkedMany matching success)
  else if success then .ok (o.rest, .verifiedMany matching)
  else .error (.unmatchedSignatures matching)

/-- checks several signatures -/
def applyMany (strict : Bool) (check : List Bytes → Verdict) (verify : Bool) (s : Stack) :
    Except Failure (Stack × Action) := do
  let o ← ManyOperands.take strict s
  let left ← unmatched (check o.signatures) o.signatures o.keys
  concludeMany verify o left

/-- carries out an instruction -/
def apply (strict : Bool) (check : List Bytes → Verdict) : SignatureOp → Stack → Except Failure (Stack × Action)
  | .one verify => applyOne check verify
  | .many verify => applyMany strict check verify

end SignatureOp

end BitcoinScript
