/-
Effects on the state of a run. An effect works on the state in place: it makes its changes one after the other, and when
it stops half way, the changes made so far stay. It stops with a failure, which the run reports, or because it asks for
an item where a stack cannot have one, which no script must be able to bring about.

Each access below is all or nothing by itself. That a whole instruction is, is a theorem about it and not a matter of
its form.
-/
import BitcoinScript.Machine.State

namespace BitcoinScript

/-- why an effect stops -/
inductive Stop where
  | failure (failure : Failure)
  /-- an index outside a stack, taken without looking -/
  | outOfRange
  deriving DecidableEq

/-- an effect on the state, with a result -/
abbrev Effect (α : Type) : Type := EStateM Stop State α

namespace Effect

/-- stops with a failure -/
def fail {α : Type} (failure : Failure) : Effect α :=
  throw (.failure failure)

/-- the value, or stops with its failure -/
def attempt {α : Type} : Except Failure α → Effect α
  | .ok a => pure a
  | .error failure => fail failure

/-- the value, or stops because there is none -/
def expect {α : Type} : Option α → Effect α
  | some a => pure a
  | none => throw .outOfRange

/-- puts the name of an operation in front of its failure -/
def within {α : Type} (operation : String) : Effect α → Effect α :=
  EStateM.adaptExcept fun
    | .failure failure => .failure (.within operation failure)
    | .outOfRange => .outOfRange

/-! ## The main stack -/

/-- fails unless there are `n` items -/
def require (n : Nat) : Effect Unit := do
  attempt ((← get).main.require n)

/-- the item that is the `n`-th from the top -/
def top (n : Nat) : Effect Bytes := do
  attempt ((← get).main.nth n)

/-- the number that is the `n`-th item from the top -/
def topNumber (strict : Bool) (n : Nat) : Effect Int := do
  attempt ((← get).main.nthNumber n strict)

/-- the `count` items from the `first`-th from the top on -/
def topMany (first : Nat) : (count : Nat) → Effect (List Bytes)
  | 0 => return []
  | count + 1 => do
    let item ← top first
    let items ← topMany (first + 1) count
    return item :: items

/-- puts an item on top -/
def push (item : Bytes) : Effect Unit :=
  modify (·.pushMain item)

/-- puts a number on top -/
def pushNumber (n : Int) : Effect Unit :=
  modify fun s => { s with main := s.main.pushNumber n }

/-- puts a truth value on top -/
def pushBool (b : Bool) : Effect Unit :=
  modify fun s => { s with main := s.main.pushBool b }

/-- takes the top item off -/
def pop : Effect Bytes := do
  let (item, s) ← attempt (← get).popMain
  set s
  return item

/-- takes the top item off, if there is one -/
def dropTop : Effect Unit :=
  modify fun s => { s with main := s.main.tail }

/-- takes the top `n` items off; they come with the lowest first -/
def popMany (n : Nat) : Effect (List Bytes) := do
  let (items, main) ← attempt ((← get).main.popMany n)
  modify fun s => { s with main }
  return items

/-- how many items lie below the top `n`, which are taken to be there -/
def below (n : Nat) : Effect Nat := do
  let height := (← get).main.length
  if height < n then throw .outOfRange else return height - n

/-- takes out the item that has `under` items under it, which is taken to be there -/
def remove (under : Nat) : Effect Bytes := do
  let (item, main) ← expect ((← get).main.removeAbove? under)
  modify fun s => { s with main }
  return item

/-- puts an item in so that `under` items are under it, which are taken to be there -/
def insert (under : Nat) (item : Bytes) : Effect Unit := do
  if (← get).main.length < under then throw .outOfRange
  else modify fun s => { s with main := s.main.insertAbove under item }

/-! ## The second stack and the open blocks -/

/-- puts an item on the second stack -/
def pushAlt (item : Bytes) : Effect Unit :=
  modify (·.pushAlt item)

/-- takes the top item off the second stack -/
def popAlt : Effect Bytes := do
  let (item, s) ← attempt (← get).popAlt
  set s
  return item

/-- opens a block -/
def enterBlock (taken : Bool) : Effect Unit :=
  modify (·.enterBlock taken)

/-- turns the innermost block to its second part -/
def turnBlock : Effect Unit := do
  set (← attempt (← get).turnBlock)

/-- closes the innermost block -/
def exitBlock : Effect Unit := do
  set (← attempt (← get).exitBlock)

/-- fails if there are too many items -/
def checkSize : Effect Unit := do
  attempt (← get).checkSize

/-! ## What the accesses come to -/

variable {α : Type} {s : State}

@[simp] theorem run_attempt_ok (a : α) : (attempt (.ok a)).run s = .ok a s := rfl

@[simp] theorem run_attempt_error (failure : Failure) :
    (attempt (.error failure) : Effect α).run s = .error (.failure failure) s := rfl

@[simp] theorem liftM_eq (x : Effect α) : (liftM x : Effect α) = x := rfl

theorem run_get_bind (f : State → Effect α) : (get >>= f : Effect α).run s = (f s).run s := rfl

theorem run_require {n : Nat} (h : n ≤ s.main.length) : (require n).run s = .ok () s := by
  simp only [require, EStateM.run_bind, EStateM.run_get, Stack.require_eq_ok h, run_attempt_ok]

theorem run_require_lt {n : Nat} (h : s.main.length < n) :
    (require n).run s = .error (.failure (.tooFewItems n s.main.length)) s := by
  simp only [require, EStateM.run_bind, EStateM.run_get, Stack.require_eq_error h, run_attempt_error]

theorem run_top {n : Nat} {item : Bytes} (h : s.main[n]? = some item) : (top (n + 1)).run s = .ok item s := by
  have hn : s.main.nth (n + 1) = .ok item := by simp only [Stack.nth, Nat.add_sub_cancel, h]
  simp only [top, EStateM.run_bind, EStateM.run_get, hn, run_attempt_ok]

/-- a numeric operand that is there is read, or refused, as an item by itself is -/
theorem run_topNumber {strict : Bool} {n : Nat} {item : Bytes} (h : s.main[n]? = some item) :
    (topNumber strict (n + 1)).run s = (attempt (Number.read item operandLimit strict)).run s := by
  have hn : s.main.nthNumber (n + 1) strict = Number.read item operandLimit strict := by
    simp only [Stack.nthNumber, Stack.nth, Nat.add_sub_cancel, h]
    rfl
  simp only [topNumber, EStateM.run_bind, EStateM.run_get, hn]

theorem run_topMany {first count : Nat} (h : first + count ≤ s.main.length) :
    (topMany (first + 1) count).run s = .ok ((s.main.drop first).take count) s := by
  induction count generalizing first with
  | zero => rfl
  | succ count ih =>
    have hf : first < s.main.length := by omega
    have hs : first + 1 + count ≤ s.main.length := by omega
    rw [List.drop_eq_getElem_cons hf, List.take_succ_cons]
    simp only [topMany, EStateM.run_bind, run_top (List.getElem?_eq_getElem hf), ih hs, EStateM.run_pure]

theorem run_popMany {n : Nat} (h : n ≤ s.main.length) :
    (popMany n).run s = .ok (s.main.take n).reverse { s with main := s.main.drop n } := by
  have hp : s.main.popMany n = .ok ((s.main.take n).reverse, s.main.drop n) := by
    simp only [Stack.popMany, Stack.require_eq_ok h]
    rfl
  simp only [popMany, EStateM.run_bind, EStateM.run_get, hp, run_attempt_ok, EStateM.run_modify, EStateM.run_pure]

theorem run_below {n : Nat} (front : Stack) {rest : Stack} (h : s.main = front ++ rest) (hn : n = front.length) :
    (below n).run s = .ok rest.length s := by
  have hl : s.main.length = rest.length + n := by rw [h, hn, List.length_append, Nat.add_comm]
  have hlt : ¬ rest.length + n < n := by omega
  simp only [below, EStateM.run_bind, EStateM.run_get, hl, if_neg hlt, EStateM.run_pure, Nat.add_sub_cancel]

theorem run_remove {under : Nat} (front : Stack) {rest : Stack} {item : Bytes} (h : s.main = front ++ item :: rest)
    (hu : under = rest.length) : (remove under).run s = .ok item { s with main := front ++ rest } := by
  subst hu
  simp only [remove, EStateM.run_bind, EStateM.run_get, h, Stack.removeAbove?_append, expect, EStateM.run_pure,
    EStateM.run_modify]

theorem run_insert {under : Nat} (front : Stack) {rest : Stack} {item : Bytes} (h : s.main = front ++ rest)
    (hu : under = rest.length) : (insert under item).run s = .ok () { s with main := front ++ item :: rest } := by
  subst hu
  have hl : ¬ (front ++ rest).length < rest.length := by
    rw [List.length_append]
    omega
  simp only [insert, EStateM.run_bind, EStateM.run_get, h, if_neg hl, EStateM.run_modify, Stack.insertAbove_append]

end Effect

end BitcoinScript
