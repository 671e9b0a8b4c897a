/-
The open conditional blocks of a run. Each block knows whether the part of it that is being walked through is taken, and
whether its turn from the first part to the second has passed, which happens at most once.

An operation is executed if every open block is taken. To answer this without looking at all blocks, the position of the
outermost block that is not taken is kept beside them.
-/

namespace BitcoinScript

/-- an open block -/
structure Block where
  taken : Bool
  turned : Bool
  deriving DecidableEq

/-- the open blocks -/
structure Branches where
  /-- innermost first -/
  blocks : List Block
  /-- how many blocks lie around the outermost one that is not taken -/
  firstSkipped : Option Nat
  deriving DecidableEq

namespace Branches

/-- no open blocks -/
def none : Branches := ⟨[], .none⟩

/-- the number of open blocks -/
def count (branches : Branches) : Nat :=
  branches.blocks.length

/-- whether every open block is taken -/
def allTaken (branches : Branches) : Bool :=
  branches.firstSkipped.isNone

/-- opens a block -/
def push (branches : Branches) (taken : Bool) : Branches where
  blocks := ⟨taken, false⟩ :: branches.blocks
  firstSkipped := if branches.allTaken && !taken then some branches.count else branches.firstSkipped

/-- closes the innermost block, if there is one -/
def pop? (branches : Branches) : Option Branches :=
  match branches.blocks with
  | [] => .none
  | _ :: outer =>
    some {
      blocks := outer
      firstSkipped := if branches.firstSkipped = some outer.length then .none else branches.firstSkipped }

/-- turns the innermost block to its second part, if there is a block and it has not been turned -/
def turn? (branches : Branches) : Option Branches :=
  match branches.blocks with
  | [] => .none
  | block :: outer =>
    if block.turned then .none
    else
      some {
        blocks := ⟨!block.taken, true⟩ :: outer
        firstSkipped :=
          match branches.firstSkipped with
          | .none => some outer.length
          | some k => if k = outer.length then .none else some k }

end Branches

end BitcoinScript
