/-
Instructions in place. Each is a short program of accesses to the state: it looks at its operands, takes items off, and
puts its results back, in an order in which something may fail in the middle.

The walk through the keys of a check of several signatures goes by indices, the next signature and the next key, and
gives up as soon as fewer keys than signatures are left.
-/
import BitcoinScript.Machine.Effect
import BitcoinScript.Machine.Meaning

namespace BitcoinScript

open Effect

/-- rearranges the items on top -/
def Shuffle.perform : Shuffle → Effect Action
  | .drop2 => do
    let _ ← popMany 2
    return .shuffled .drop2 []
  | .dup2 => do
    let a ← top 2
    let b ← top 1
    push a
    push b
    return .shuffled .dup2 []
  | .dup3 => do
    let a ← top 3
    let b ← top 2
    let c ← top 1
    push a
    push b
    push c
    return .shuffled .dup3 []
  | .over2 => do
    let a ← top 4
    let b ← top 3
    push a
    push b
    return .shuffled .over2 []
  | .rot2 => do
    let under ← below 6
    let a ← remove under
    let b ← remove under
    push a
    push b
    return .shuffled .rot2 []
  | .swap2 => do
    let under ← below 4
    let a ← remove under
    let b ← remove under
    push a
    push b
    return .shuffled .swap2 []
  | .drop => do
    let a ← pop
    return .shuffled .drop a
  | .dup => do
    let a ← top 1
    push a
    return .shuffled .dup a
  | .nip => do
    let under ← below 2
    let a ← remove under
    return .shuffled .nip a
  | .over => do
    let a ← top 2
    push a
    return .shuffled .over a
  | .rot => do
    let under ← below 3
    let a ← remove under
    push a
    return .shuffled .rot []
  | .swap => do
    let under ← below 2
    let a ← remove under
    push a
    return .shuffled .swap []
  | .tuck => do
    let b ← top 1
    let under ← below 2
    insert under b
    return .shuffled .tuck b

namespace StackOp

/-- copies the item at a depth given on top to the top, or moves it there; the depth is checked, and then taken off -/
def performFetch (strict keep : Bool) : Effect Action := do
  let index ← topNumber strict 1
  let items := (← get).main.length - 1
  if index < 0 ∨ items ≤ index then fail (.noSuchItem index items)
  else
    dropTop
    let under ← below (index.toNat + 1)
    let item ← if keep then top (index.toNat + 1) else remove under
    push item
    return .fetched keep index item

/-- carries out an instruction in place -/
def perform (strict : Bool) : StackOp → Effect Action
  | .nop => return .nothing
  | .ignored op => return .ignored op
  | .pushNumber n => do
    Effect.pushNumber n
    return .pushedNumber n
  | .verify => do
    let item ← top 1
    if Number.isTrue item then
      dropTop
      return .verified item
    else fail (.falseItem item)
  | .unspendable => fail .unspendable
  | .shuffle kind => kind.perform
  | .dupIfTrue => do
    let item ← top 1
    if Number.isTrue item then
      push item
      return .duplicatedIf item true
    else return .duplicatedIf item false
  | .pushDepth => do
    let depth := (← get).main.length
    Effect.pushNumber depth
    return .pushedDepth depth
  | .fetch keep => performFetch strict keep
  | .pushSize => do
    let item ← top 1
    Effect.pushNumber item.length
    return .pushedSize item.length
  | .equal false => do
    let a ← top 2
    let b ← top 1
    let _ ← popMany 2
    pushBool (a == b)
    return .compared a b (a == b)
  | .equal true => do
    let a ← top 2
    let b ← top 1
    if a == b then
      let _ ← popMany 2
      return .verifiedEqual a
    else fail (.unequalItems a b)
  | .unary op => do
    let x ← topNumber strict 1
    dropTop
    Effect.pushNumber (op.eval x)
    return .computed1 x (op.eval x)
  | .binary op => do
    let x ← topNumber strict 2
    let y ← topNumber strict 1
    let _ ← popMany 2
    Effect.pushNumber (op.eval x y)
    return .computed2 x y (op.eval x y)
  | .equalNumbersVerify => do
    let x ← topNumber strict 2
    let y ← topNumber strict 1
    if x = y then
      let _ ← popMany 2
      return .verifiedEqualNumbers x y
    else fail (.unequalNumbers x y)
  | .within => do
    let x ← topNumber strict 3
    let low ← topNumber strict 2
    let high ← topNumber strict 1
    let inside := low ≤ x && x < high
    let _ ← popMany 3
    pushBool inside
    return .tested x low high inside
  | .hash digest => do
    let item ← pop
    push (digest.apply item)
    return .hashed item.length (digest.apply item)

end StackOp

/-- opens, turns or closes a block in place -/
def FlowOp.perform : FlowOp → Effect Action
  | .openBlock negated => do
    if (← get).executing then
      let item ← pop
      let value := Number.isTrue item
      let taken := value != negated
      enterBlock taken
      return .opened item value taken
    else
      enterBlock false
      return .openedInSkipped
  | .turnBlock => do
    Effect.turnBlock
    return .turned (← get).executing
  | .closeBlock => do
    exitBlock
    return .closed (← get).branches.count

/-! ## Signatures -/

/-- walks through the keys from number `key` on, with `matched` signatures matched so far: how many are matched in the
end, and whether these are all; a verdict may have other effects -/
def matchKeys {m : Type → Type} [Monad m] [MonadLiftT Effect m] (check : (signature key : Bytes) → m Bool)
    (signatures keys : List Bytes) (matched key : Nat) : m (Nat × Bool) := do
  if matched < signatures.length then
    let signature ← expect signatures[matched]?
    if _h : key < keys.length then
      let valid ← check signature keys[key]
      let matched := if valid then matched + 1 else matched
      if keys.length - (key + 1) < signatures.length - matched then return (matched, false)
      else matchKeys check signatures keys matched (key + 1)
    else (throw .outOfRange : Effect (Nat × Bool))
  else return (matched, true)
termination_by keys.length - key

namespace SignatureOp

/-- checks one signature in place -/
def performOne (check : List Bytes → Verdict) (verify : Bool) : Effect Action := do
  let signature ← top 2
  let key ← top 1
  let valid ← attempt (check [signature] signature key)
  if verify then
    if valid then
      let _ ← popMany 2
      return .verifiedSignature key
    else fail (.badSignature key)
  else
    let _ ← popMany 2
    pushBool valid
    return .checked key valid

/-- the number of keys and the number of signatures, once the items they count are known to be there -/
def operandCounts (strict : Bool) : Effect (Nat × Nat) := do
  let n ← topNumber strict 1
  if n < 0 ∨ keyLimit < n then fail (.keyCount n)
  else
    require (n.toNat + 2)
    let m ← topNumber strict (n.toNat + 2)
    if m < 0 ∨ n < m then fail (.signatureCount m n.toNat)
    else
      require (n.toNat + m.toNat + 3)
      return (n.toNat, m.toNat)

/-- checks several signatures in place; a verdict may have other effects -/
def performMany {m : Type → Type} [Monad m] [MonadLiftT Effect m] (strict : Bool)
    (check : List Bytes → (signature key : Bytes) → m Bool) (verify : Bool) : m Action := do
  let (keyCount, signatureCount) ← operandCounts strict
  let keys ← topMany 2 keyCount
  let signatures ← topMany (keyCount + 3) signatureCount
  let (matched, success) ← matchKeys (check signatures) signatures keys 0 0
  let matching : Matching := ⟨matched, signatureCount, keyCount⟩
  if verify then
    if success then
      let _ ← popMany (keyCount + signatureCount + 3)
      return .verifiedMany matching
    else fail (.unmatchedSignatures matching)
  else
    let _ ← popMany (keyCount + signatureCount + 3)
    pushBool success
    return .checkedMany matching success

/-- carries out an instruction in place -/
def perform (strict : Bool) (check : List Bytes → Verdict) : SignatureOp → Effect Action
  | .one verify => performOne check verify
  | .many verify => performMany strict (fun signatures signature key => attempt (check signatures signature key)) verify

end SignatureOp

/-- carries out an instruction in place -/
def Instruction.perform (ctx : Context) : Instruction → Effect Action
  | .stack op => op.perform ctx.strict
  | .flow op => op.perform
  | .toAlt => do
    let item ← pop
    pushAlt item
    return .movedToAlt item
  | .fromAlt => do
    let item ← popAlt
    push item
    return .movedFromAlt item
  | .codeSeparator => do
    let codeStart := ctx.program.offset ((← get).pc + 1)
    modify fun s => { s with codeStart }
    return .movedCodeStart codeStart
  | .signature op => do
    match ctx.spend with
    | none => fail .noTransaction
    | some spend => op.perform ctx.strict (ctx.check spend (← get).codeStart)

/-- runs one operation in place -/
def Operation.perform (ctx : Context) : Operation → Effect Action
  | .push data => do
    if (← get).executing then
      Effect.push data
      checkSize
      return .pushed data
    else return .skippedPush data.length
  | .code op => do
    if op.isDisabled then fail (.disabledOpcode op)
    else
      let executing := (← get).executing
      match op.instruction? with
      | none => if executing then fail (.unknownOpcode op) else return .skipped op
      | some instruction =>
        if !executing && !instruction.isFlow then return .skipped op
        else
          within op.name (do attempt (instruction.ready ctx (← get)))
          let action ← within op.name (instruction.perform ctx)
          checkSize
          return action

end BitcoinScript
