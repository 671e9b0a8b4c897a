/-
A transaction bound to a run: the transaction together with the input whose script is evaluated, which it is known to
have.
-/
import BitcoinScript.Failure
import BitcoinScript.Text.Blank
import BitcoinScript.Transaction.Writer

namespace BitcoinScript

/-- a transaction and the index of one of its inputs -/
structure Spend where
  tx : Transaction
  index : Nat
  index_lt : index < tx.inputs.length

namespace Spend

/-- binds an input of a transaction -/
def ofTransaction (tx : Transaction) (index : Nat) : Except Failure Spend :=
  if h : index < tx.inputs.length then .ok ⟨tx, index, h⟩ else .error (.inputIndex index tx.inputs.length)

/-- binds an input of the transaction with the given written form -/
def ofBytes (bs : Bytes) (index : Nat) : Except Failure Spend :=
  match Transaction.decode bs with
  | .ok tx => ofTransaction tx index
  | .error e => .error (.transaction e)

/-- binds an input of a transaction given in hexadecimal, with blanks around it or not -/
def ofText (text : String) (index : Nat) : Except Failure Spend :=
  match Hex.decode (Text.trim text) with
  | .ok bs => ofBytes bs index
  | .error e => .error (.transactionText e)

/-- the number of inputs of the transaction -/
def inputCount (spend : Spend) : Nat :=
  spend.tx.inputs.length

end Spend

end BitcoinScript
