/-
Everything that can go wrong, as causes. Each failure has a kind, out of a flat list of thirteen, and a message made for
the log of a run; both are functions of the cause, so the wording stands in one place.
-/
import BitcoinScript.Limits
import BitcoinScript.Opcode
import BitcoinScript.Transaction.Reader

namespace BitcoinScript

/-- the kind of a failure -/
inductive FailureKind where
  | invalidPushLength
  | scriptSizeExceeded
  | stackUnderflow
  | numericOverflow
  | unbalancedIf
  | unbalancedElse
  | unbalancedEndif
  | verifyFailed
  | disabledOpcode
  | unknownOpcode
  | missingTransactionContext
  | malformedTransaction
  | inputIndexOutOfRange
  deriving DecidableEq

namespace FailureKind

/-- all kinds -/
def all : List FailureKind :=
  [.invalidPushLength, .scriptSizeExceeded, .stackUnderflow, .numericOverflow, .unbalancedIf, .unbalancedElse,
    .unbalancedEndif, .verifyFailed, .disabledOpcode, .unknownOpcode, .missingTransactionContext,
    .malformedTransaction, .inputIndexOutOfRange]

/-- the name of a kind -/
def name : FailureKind → String
  | .invalidPushLength => "InvalidPushLength"
  | .scriptSizeExceeded => "ScriptSizeExceeded"
  | .stackUnderflow => "StackUnderflow"
  | .numericOverflow => "NumericOverflow"
  | .unbalancedIf => "UnbalancedIf"
  | .unbalancedElse => "UnbalancedElse"
  | .unbalancedEndif => "UnbalancedEndif"
  | .verifyFailed => "VerifyFailed"
  | .disabledOpcode => "DisabledOpcode"
  | .unknownOpcode => "UnknownOpcode"
  | .missingTransactionContext => "MissingTransactionContext"
  | .malformedTransaction => "MalformedTransaction"
  | .inputIndexOutOfRange => "InputIndexOutOfRange"

/-- the kind of a name -/
def ofName? (text : String) : Option FailureKind :=
  all.find? fun kind => kind.name == text

end FailureKind

/-! ## Causes -/

/-- how a check of several signatures went: how many of them matched, out of how many, against how many keys -/
structure Matching where
  matched : Nat
  signatures : Nat
  keys : Nat
  deriving DecidableEq

/-- the wording of the result of a check of several signatures -/
def Matching.text (m : Matching) : String :=
  s!"{m.matched} of {m.signatures} signature(s) matched against {m.keys} key(s)"

/-- the cause of a failure -/
inductive Failure where
  /-- too few items on a stack -/
  | tooFewItems (needed found : Nat)
  | emptyAltStack
  /-- an index into the stack that is negative or too large -/
  | noSuchItem (index : Int) (items : Nat)
  | tooManyItems (items : Nat)
  | longOperand (length limit : Nat)
  | paddedNumber (bytes : Bytes)
  | keyCount (count : Int)
  | signatureCount (count : Int) (keys : Nat)
  | elseWithoutIf
  | secondElse
  | endifWithoutIf
  | unclosedBlocks (blocks : Nat)
  | falseItem (item : Bytes)
  | unspendable
  | unequalItems (first second : Bytes)
  | unequalNumbers (first second : Int)
  | badSignature (key : Bytes)
  | unmatchedSignatures (matching : Matching)
  | disabledOpcode (op : Opcode)
  | unknownOpcode (op : Opcode)
  /-- a signature check without a spending transaction -/
  | noTransaction
  | longScript (length : Nat)
  | tooManyOperations
  /-- a push that runs past the end of the script -/
  | openPush (offset : Nat)
  | longPush (offset length : Nat)
  | transactionText (error : Hex.Error)
  | transaction (error : Transaction.DecodeError)
  | inputIndex (index inputs : Nat)
  /-- a signature hash for an input that the transaction does not have -/
  | signedInput
  /-- a failure that the caller describes -/
  | stated (kind : FailureKind) (message : String)
  /-- a failure inside an operation -/
  | within (operation : String) (failure : Failure)
  deriving DecidableEq

namespace Failure

/-- the kind of a failure -/
def kind : Failure → FailureKind
  | .tooFewItems _ _ | .emptyAltStack | .noSuchItem _ _ => .stackUnderflow
  | .tooManyItems _ | .longScript _ | .tooManyOperations => .scriptSizeExceeded
  | .longOperand _ _ | .paddedNumber _ | .keyCount _ | .signatureCount _ _ => .numericOverflow
  | .elseWithoutIf | .secondElse => .unbalancedElse
  | .endifWithoutIf => .unbalancedEndif
  | .unclosedBlocks _ => .unbalancedIf
  | .falseItem _ | .unspendable | .unequalItems _ _ | .unequalNumbers _ _ | .badSignature _
  | .unmatchedSignatures _ => .verifyFailed
  | .disabledOpcode _ => .disabledOpcode
  | .unknownOpcode _ => .unknownOpcode
  | .noTransaction => .missingTransactionContext
  | .openPush _ | .longPush _ _ => .invalidPushLength
  | .transactionText _ | .transaction _ => .malformedTransaction
  | .inputIndex _ _ | .signedInput => .inputIndexOutOfRange
  | .stated kind _ => kind
  | .within _ failure => failure.kind

/-- the message of a failure -/
def message : Failure → String
  | .tooFewItems needed found => s!"needs {needed} stack item(s), found {found}"
  | .emptyAltStack => "alt stack is empty"
  | .noSuchItem index items => s!"index {index} out of range for {items} item(s)"
  | .tooManyItems items => s!"{items} stack items, at most {stackLimit} allowed"
  | .longOperand length limit => s!"numeric operand is {length} bytes, at most {limit} allowed"
  | .paddedNumber bytes => s!"non-minimally encoded number {Hex.encode bytes}"
  | .keyCount count => s!"public key count {count} out of range"
  | .signatureCount count keys => s!"signature count {count} out of range for {keys} key(s)"
  | .elseWithoutIf => "OP_ELSE without matching OP_IF"
  | .secondElse => "second OP_ELSE in the same OP_IF block"
  | .endifWithoutIf => "OP_ENDIF without matching OP_IF"
  | .unclosedBlocks blocks => s!"end of script with {blocks} unclosed OP_IF block(s)"
  | .falseItem item => s!"top item {Hex.shown item} is false"
  | .unspendable => "script is marked unspendable"
  | .unequalItems first second => s!"{Hex.shown first} != {Hex.shown second}"
  | .unequalNumbers first second => s!"{first} != {second}"
  | .badSignature key => s!"signature verification failed for key {Hex.shown key}"
  | .unmatchedSignatures matching => matching.text
  | .disabledOpcode op => s!"{op.name} is disabled"
  | .unknownOpcode op => s!"unknown opcode 0x{Hex.encode [op.byte]} ({op.name})"
  | .noTransaction => "no spending transaction bound"
  | .longScript length => s!"script is {length} bytes, at most {scriptLimit} allowed"
  | .tooManyOperations => s!"more than {operationLimit} non-push operations"
  | .openPush offset => s!"invalid push at byte {offset}: unexpected end of script"
  | .longPush offset length => s!"push at byte {offset} is {length} bytes, at most {itemLimit} allowed"
  | .transactionText error => s!"invalid transaction hex: {error.message}"
  | .transaction error => s!"cannot decode transaction: {error.message}"
  | .inputIndex index inputs => s!"input index {index} out of range, transaction has {inputs} input(s)"
  | .signedInput => "invalid input index"
  | .stated _ message => message
  | .within operation failure => s!"{operation}: {failure.message}"

/-- the kind and the message -/
def text (failure : Failure) : String :=
  s!"{failure.kind.name}: {failure.message}"

end Failure

/-! ## Values that are not failures -/

theorem exists_of_map_eq_ok {α β : Type} {f : α → β} {x : Except Failure α} {b : β} (h : x.map f = .ok b) :
    ∃ a, x = .ok a ∧ f a = b := by
  cases x with
  | error e => cases h
  | ok a => exact ⟨a, rfl, by cases h; rfl⟩

theorem exists_of_bind_eq_ok {α β : Type} {x : Except Failure α} {f : α → Except Failure β} {b : β}
    (h : x >>= f = .ok b) : ∃ a, x = .ok a ∧ f a = .ok b := by
  cases x with
  | error e => cases h
  | ok a => exact ⟨a, rfl, h⟩

end BitcoinScript
