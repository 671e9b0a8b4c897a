/-
The instructions that work on the main stack alone. Each either gives the stack after it and what it did, or a failure;
where there are too few items for its pattern, the failure is the one of `Stack.require`.

Numbers are read from the deepest operand up, so of two bad operands the deeper is reported.
-/
import BitcoinScript.Machine.Action
import BitcoinScript.Stack

namespace BitcoinScript

/-- one for true, zero for false -/
def truth (b : Bool) : Int :=
  if b then 1 else 0

/-- the value of an operation on one number -/
def UnaryOp.eval : UnaryOp → Int → Int
  | .increment, x => x + 1
  | .decrement, x => x - 1
  | .negate, x => -x
  | .abs, x => x.natAbs
  | .not, x => truth (x == 0)
  | .notZero, x => truth (x != 0)

/-- the value of an operation on two numbers, the deeper one first -/
def BinaryOp.eval : BinaryOp → Int → Int → Int
  | .add, x, y => x + y
  | .sub, x, y => x - y
  | .and, x, y => truth (x != 0 && y != 0)
  | .or, x, y => truth (x != 0 || y != 0)
  | .equal, x, y => truth (x == y)
  | .notEqual, x, y => truth (x != y)
  | .less, x, y => truth (x < y)
  | .greater, x, y => truth (y < x)
  | .lessOrEqual, x, y => truth (x ≤ y)
  | .greaterOrEqual, x, y => truth (y ≤ x)
  | .min, x, y => if x ≤ y then x else y
  | .max, x, y => if x ≤ y then y else x

/-- a rearranged stack and the item that the log shows, if there are enough items -/
def Shuffle.apply? : Shuffle → Stack → Option (Stack × Bytes)
  | .drop2, _ :: _ :: s => some (s, [])
  | .dup2, b :: a :: s => some (b :: a :: b :: a :: s, [])
  | .dup3, c :: b :: a :: s => some (c :: b :: a :: c :: b :: a :: s, [])
  | .over2, d :: c :: b :: a :: s => some (b :: a :: d :: c :: b :: a :: s, [])
  | .rot2, f :: e :: d :: c :: b :: a :: s => some (b :: a :: f :: e :: d :: c :: s, [])
  | .swap2, d :: c :: b :: a :: s => some (b :: a :: d :: c :: s, [])
  | .drop, a :: s => some (s, a)
  | .dup, a :: s => some (a :: a :: s, a)
  | .nip, b :: a :: s => some (b :: s, a)
  | .over, b :: a :: s => some (a :: b :: a :: s, a)
  | .rot, c :: b :: a :: s => some (a :: c :: b :: s, [])
  | .swap, b :: a :: s => some (a :: b :: s, [])
  | .tuck, b :: a :: s => some (b :: a :: b :: s, b)
  | _, _ => none

namespace StackOp

/-- reads a numeric operand -/
def operand (strict : Bool) (item : Bytes) : Except Failure Int :=
  Number.read item operandLimit strict

/-- the item that `index` others lie above, and the stack with a copy of it on top or with it moved there -/
def fetchItem (keep : Bool) (index : Int) (stack : Stack) : Except Failure (Stack × Action) :=
  match (if index < 0 then none else stack[index.toNat]?) with
  | none => .error (.noSuchItem index stack.length)
  | some item =>
    let below := if keep then stack else stack.eraseIdx index.toNat
    .ok (item :: below, .fetched keep index item)

/-- carries out an instruction -/
def apply (strict : Bool) : StackOp → Stack → Except Failure (Stack × Action)
  | .nop, s => .ok (s, .nothing)
  | .ignored op, s => .ok (s, .ignored op)
  | .pushNumber n, s => .ok (s.pushNumber n, .pushedNumber n)
  | .verify, item :: s => if Number.isTrue item then .ok (s, .verified item) else .error (.falseItem item)
  | .unspendable, _ => .error .unspendable
  | .dupIfTrue, item :: s =>
    if Number.isTrue item then .ok (item :: item :: s, .duplicatedIf item true)
    else .ok (item :: s, .duplicatedIf item false)
  | .pushDepth, s => .ok (s.pushNumber s.length, .pushedDepth s.length)
  | .fetch keep, item :: s => do fetchItem keep (← operand strict item) s
  | .pushSize, item :: s => .ok (Stack.pushNumber (item :: s) item.length, .pushedSize item.length)
  | .equal false, b :: a :: s => .ok (Stack.pushBool s (a == b), .compared a b (a == b))
  | .equal true, b :: a :: s => if a == b then .ok (s, .verifiedEqual a) else .error (.unequalItems a b)
  | .unary op, item :: s => do
    let x ← operand strict item
    return (Stack.pushNumber s (op.eval x), .computed1 x (op.eval x))
  | .binary op, b :: a :: s => do
    let x ← operand strict a
    let y ← operand strict b
    return (Stack.pushNumber s (op.eval x y), .computed2 x y (op.eval x y))
  | .equalNumbersVerify, b :: a :: s => do
    let x ← operand strict a
    let y ← operand strict b
    if x = y then .ok (s, .verifiedEqualNumbers x y) else .error (.unequalNumbers x y)
  | .within, c :: b :: a :: s => do
    let x ← operand strict a
    let low ← operand strict b
    let high ← operand strict c
    let inside := low ≤ x && x < high
    return (Stack.pushBool s inside, .tested x low high inside)
  | .hash digest, item :: s =>
    let result := digest.apply item
    .ok (Stack.push s result, .hashed item.length result)
  | .shuffle kind, s =>
    match kind.apply? s with
    | some (s', item) => .ok (s', .shuffled kind item)
    | none => .error (.tooFewItems kind.depth s.length)
  | op, s => .error (.tooFewItems op.depth s.length)

end StackOp

end BitcoinScript
