/-
Stacks of items. A stack is the list of its items with the top first. Operations that reach below the top fail, and
leave the stack as it is, when there are too few items.
-/
import BitcoinScript.Number

namespace BitcoinScript

/-- a stack, its top first -/
abbrev Stack := List Bytes

namespace Stack

/-- fails unless there are `n` items -/
def require (stack : Stack) (n : Nat) : Except Failure Unit :=
  if stack.length < n then .error (.tooFewItems n stack.length) else .ok ()

/-- puts an item on top -/
def push (stack : Stack) (item : Bytes) : Stack :=
  item :: stack

/-- puts a number on top -/
def pushNumber (stack : Stack) (n : Int) : Stack :=
  stack.push (Number.encode n)

/-- puts a truth value on top -/
def pushBool (stack : Stack) (b : Bool) : Stack :=
  stack.push (Number.ofBool b)

/-- takes the top item off -/
def pop : Stack → Except Failure (Bytes × Stack)
  | [] => .error (.tooFewItems 1 0)
  | item :: rest => .ok (item, rest)

/-- takes the top `n` items off; they come with the lowest first -/
def popMany (stack : Stack) (n : Nat) : Except Failure (List Bytes × Stack) := do
  stack.require n
  return ((stack.take n).reverse, stack.drop n)

/-- the item that is the `n`-th from the top, the top being the first -/
def nth (stack : Stack) (n : Nat) : Except Failure Bytes :=
  match stack[n - 1]? with
  | some item => .ok item
  | none => .error (.tooFewItems n stack.length)

/-- the number that is the `n`-th item from the top -/
def nthNumber (stack : Stack) (n : Nat) (strict : Bool) : Except Failure Int := do
  Number.read (← stack.nth n) operandLimit strict

/-- puts an item in so that `below` items are under it, if there are that many -/
def insertAbove (stack : Stack) (below : Nat) (item : Bytes) : Stack :=
  stack.insertIdx (stack.length - below) item

/-- takes out the item that has `below` items under it, if there is one -/
def removeAbove? (stack : Stack) (below : Nat) : Option (Bytes × Stack) :=
  if below < stack.length then
    let index := stack.length - 1 - below
    stack[index]?.map fun item => (item, stack.eraseIdx index)
  else none

theorem require_eq_ok {stack : Stack} {n : Nat} (h : n ≤ stack.length) : stack.require n = .ok () :=
  if_neg (Nat.not_lt.2 h)

theorem require_eq_error {stack : Stack} {n : Nat} (h : stack.length < n) :
    stack.require n = .error (.tooFewItems n stack.length) :=
  if_pos h

theorem removeAbove?_append (front rest : Stack) (item : Bytes) :
    removeAbove? (front ++ item :: rest) rest.length = some (item, front ++ rest) := by
  have hi : front.length + (rest.length + 1) - 1 - rest.length = front.length := by omega
  have hl : rest.length < front.length + (rest.length + 1) := by omega
  rw [removeAbove?, List.length_append, List.length_cons, if_pos hl, hi]
  simp [List.eraseIdx_append_of_length_le]

theorem insertAbove_append (front rest : Stack) (item : Bytes) :
    insertAbove (front ++ rest) rest.length item = front ++ item :: rest := by
  have hi : (front ++ rest).length - rest.length = front.length := by rw [List.length_append, Nat.add_sub_cancel]
  rw [insertAbove, hi]
  clear hi
  induction front with
  | nil => simp
  | cons x front ih => simpa using ih

/-! ## Texts -/

/-- an item as a number if it is the minimal form of one, and else in hexadecimal -/
def itemText (item : Bytes) : String :=
  if item.isEmpty then "0"
  else
    match Number.read item operandLimit true with
    | .ok n => toString n
    | .error _ => Hex.encode item

/-- the items as numbers where possible, top first -/
def text (stack : Stack) : String :=
  " ".intercalate (stack.map itemText)

/-- the items in hexadecimal, top first -/
def hexText (stack : Stack) : String :=
  " ".intercalate (stack.map fun item => "<" ++ Hex.encode item ++ ">")

end Stack

end BitcoinScript
