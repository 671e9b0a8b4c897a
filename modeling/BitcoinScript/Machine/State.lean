/-
The state of a run: the two stacks, the open conditional blocks, the index of the operation to run next, and the byte
where the script code for signatures starts.
-/
import BitcoinScript.Branches
import BitcoinScript.Stack

namespace BitcoinScript

/-- the state of a run -/
structure State where
  main : Stack
  alt : Stack
  branches : Branches
  pc : Nat
  codeStart : Nat
  deriving DecidableEq

namespace State

/-- the state before the first operation -/
def initial : State := ⟨[], [], .none, 0, 0⟩

/-- whether operations are executed, and not only skipped -/
def executing (s : State) : Bool :=
  s.branches.allTaken

/-- puts an item on the main stack -/
def pushMain (s : State) (item : Bytes) : State :=
  { s with main := s.main.push item }

/-- takes the top item off the main stack -/
def popMain (s : State) : Except Failure (Bytes × State) :=
  s.main.pop.map fun (item, main) => (item, { s with main })

/-- puts an item on the second stack -/
def pushAlt (s : State) (item : Bytes) : State :=
  { s with alt := s.alt.push item }

/-- takes the top item off the second stack -/
def popAlt (s : State) : Except Failure (Bytes × State) :=
  match s.alt with
  | [] => .error .emptyAltStack
  | item :: alt => .ok (item, { s with alt })

/-- opens a block -/
def enterBlock (s : State) (taken : Bool) : State :=
  { s with branches := s.branches.push taken }

/-- turns the innermost block to its second part -/
def turnBlock (s : State) : Except Failure State :=
  match s.branches.turn? with
  | some branches => .ok { s with branches }
  | none => .error (if s.branches.count = 0 then .elseWithoutIf else .secondElse)

/-- closes the innermost block -/
def exitBlock (s : State) : Except Failure State :=
  match s.branches.pop? with
  | some branches => .ok { s with branches }
  | none => .error .endifWithoutIf

/-- moves on to the next operation -/
def advance (s : State) : State :=
  { s with pc := s.pc + 1 }

/-- the number of items on the two stacks together -/
def items (s : State) : Nat :=
  s.main.length + s.alt.length

/-- fails if there are too many items -/
def checkSize (s : State) : Except Failure Unit :=
  if stackLimit < s.items then .error (.tooManyItems s.items) else .ok ()

/-! ## What the accesses leave -/

variable {s s' : State}

theorem popMain_eq_ok {item : Bytes} (h : s.popMain = .ok (item, s')) :
    ∃ rest, s.main = item :: rest ∧ s' = { s with main := rest } := by
  unfold popMain at h
  cases hm : s.main with
  | nil => rw [hm] at h; cases h
  | cons top rest =>
    rw [hm] at h
    cases h
    exact ⟨rest, rfl, rfl⟩

theorem popAlt_eq_ok {item : Bytes} (h : s.popAlt = .ok (item, s')) :
    ∃ rest, s.alt = item :: rest ∧ s' = { s with alt := rest } := by
  unfold popAlt at h
  cases ha : s.alt with
  | nil => rw [ha] at h; cases h
  | cons top rest =>
    rw [ha] at h
    cases h
    exact ⟨rest, rfl, rfl⟩

theorem turnBlock_eq_ok (h : s.turnBlock = .ok s') :
    ∃ branches, s.branches.turn? = some branches ∧ s' = { s with branches } := by
  unfold turnBlock at h
  split at h <;> cases h
  exact ⟨_, ‹_›, rfl⟩

theorem exitBlock_eq_ok (h : s.exitBlock = .ok s') :
    ∃ branches, s.branches.pop? = some branches ∧ s' = { s with branches } := by
  unfold exitBlock at h
  split at h <;> cases h
  exact ⟨_, ‹_›, rfl⟩

end State

end BitcoinScript
