/-
What an operation did, as it is told in the log of a run.
-/
import BitcoinScript.Failure
import BitcoinScript.Instruction

namespace BitcoinScript

/-- what an operation did -/
inductive Action where
  | pushed (data : Bytes)
  | skippedPush (length : Nat)
  | skipped (op : Opcode)
  | pushedNumber (n : Int)
  | nothing
  | ignored (op : Opcode)
  | opened (item : Bytes) (value taken : Bool)
  | openedInSkipped
  | turned (executing : Bool)
  | closed (left : Nat)
  | verified (item : Bytes)
  | movedToAlt (item : Bytes)
  | movedFromAlt (item : Bytes)
  /-- rearranged items; `item` is the one that the log shows, if it shows one -/
  | shuffled (kind : Shuffle) (item : Bytes)
  | duplicatedIf (item : Bytes) (value : Bool)
  | pushedDepth (depth : Nat)
  | fetched (keep : Bool) (index : Int) (item : Bytes)
  | pushedSize (size : Nat)
  | compared (first second : Bytes) (equal : Bool)
  | verifiedEqual (item : Bytes)
  | computed1 (x result : Int)
  | computed2 (x y result : Int)
  | verifiedEqualNumbers (x y : Int)
  | tested (x low high : Int) (inside : Bool)
  | hashed (length : Nat) (digest : Bytes)
  | movedCodeStart (start : Nat)
  | checked (key : Bytes) (valid : Bool)
  | verifiedSignature (key : Bytes)
  | checkedMany (matching : Matching) (success : Bool)
  | verifiedMany (matching : Matching)
  deriving DecidableEq

/-- the wording of a rearrangement -/
def Shuffle.text (item : Bytes) : Shuffle → String
  | .drop2 => "dropped top two items"
  | .dup2 => "duplicated top two items"
  | .dup3 => "duplicated top three items"
  | .over2 => "copied third and fourth items to the top"
  | .rot2 => "moved fifth and sixth items to the top"
  | .swap2 => "swapped the top two pairs"
  | .drop => s!"dropped {Hex.shown item}"
  | .dup => s!"duplicated {Hex.shown item}"
  | .nip => s!"removed second item {Hex.shown item}"
  | .over => s!"copied second item {Hex.shown item} to the top"
  | .rot => "rotated third item to the top"
  | .swap => "swapped top two items"
  | .tuck => s!"copied top {Hex.shown item} below the second item"

namespace Action

/-- the wording of an action -/
def text : Action → String
  | .pushed data => s!"pushed {data.length} byte(s): {Hex.shown data}"
  | .skippedPush length => s!"skipped push of {length} byte(s) (branch not taken)"
  | .skipped op => s!"skipped {op.name} (branch not taken)"
  | .pushedNumber n => s!"pushed number {n}"
  | .nothing => "no operation"
  | .ignored op => s!"{op.name} treated as no-op"
  | .opened item value true => s!"popped {Hex.shown item} ({value}), branch taken"
  | .opened item value false => s!"popped {Hex.shown item} ({value}), branch not taken"
  | .openedInSkipped => "opened branch inside a not-taken branch, not taken"
  | .turned true => "switched to else branch, now executing"
  | .turned false => "switched to else branch, now skipping"
  | .closed left => s!"closed branch, {left} still open"
  | .verified item => s!"popped {Hex.shown item}, verified true"
  | .movedToAlt item => s!"moved {Hex.shown item} to alt stack"
  | .movedFromAlt item => s!"moved {Hex.shown item} from alt stack"
  | .shuffled kind item => kind.text item
  | .duplicatedIf item true => s!"top {Hex.shown item} is true, duplicated"
  | .duplicatedIf item false => s!"top {Hex.shown item} is false, not duplicated"
  | .pushedDepth depth => s!"pushed stack depth {depth}"
  | .fetched true index item => s!"copied item {index} ({Hex.shown item}) to the top"
  | .fetched false index item => s!"moved item {index} ({Hex.shown item}) to the top"
  | .pushedSize size => s!"pushed size {size} of top item"
  | .compared first second equal => s!"popped {Hex.shown first} and {Hex.shown second}, pushed {equal}"
  | .verifiedEqual item => s!"popped two equal items {Hex.shown item}"
  | .computed1 x result => s!"popped {x}, pushed {result}"
  | .computed2 x y result => s!"popped {x} and {y}, pushed {result}"
  | .verifiedEqualNumbers x y => s!"popped {x} and {y}, numerically equal"
  | .tested x low high true => s!"{x} is within [{low}, {high}), pushed true"
  | .tested x low high false => s!"{x} is not within [{low}, {high}), pushed false"
  | .hashed length digest => s!"hashed {length} byte(s), pushed {Hex.shown digest}"
  | .movedCodeStart start => s!"script-code now starts at byte {start}"
  | .checked key true => s!"signature verified for key {Hex.shown key}, pushed true"
  | .checked key false => s!"signature verification failed for key {Hex.shown key}, pushed false"
  | .verifiedSignature key => s!"signature verified for key {Hex.shown key}"
  | .checkedMany matching success => s!"{matching.text}, pushed {success}"
  | .verifiedMany matching => matching.text

end Action

end BitcoinScript
