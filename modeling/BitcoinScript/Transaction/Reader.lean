/-
Reading a transaction from the front of a byte string. A reader takes what it needs and leaves the rest, or stops at the
first fault, so the error of a malformed transaction is that of its leftmost fault.
-/
import BitcoinScript.Transaction.Basic
import BitcoinScript.Transaction.CompactSize

namespace BitcoinScript.Transaction

/-- why a byte string is not a transaction -/
inductive DecodeError where
  /-- it ends too early -/
  | endOfInput
  /-- a count or length is not in its shortest form -/
  | longCount
  /-- the byte after the marker of the witness form is not 1 -/
  | unknownFlag (flag : UInt8)
  /-- the witness form is used, but all witnesses are empty -/
  | noWitness
  /-- a witness announces more than fits -/
  | oversizedWitness (requested : Nat)
  /-- bytes are left over -/
  | trailingBytes
  deriving DecidableEq

/-- the largest total size of the items of a witness, and their largest number -/
def witnessLimit : Nat := 4000000

/-- the wording of an error -/
def DecodeError.message : DecodeError → String
  | .endOfInput => "IO error"
  | .longCount => "non-minimal varint"
  | .unknownFlag flag => s!"unsupported segwit version: {flag.toNat}"
  | .noWitness => "parse failed: witness flag set but no witnesses present"
  | .oversizedWitness requested => s!"allocation of oversized vector: requested {requested}, maximum {witnessLimit}"
  | .trailingBytes => "parse failed: data not consumed entirely when explicitly deserializing"

/-- takes something from the front of a byte string -/
abbrev Reader (α : Type) := StateT Bytes (Except DecodeError) α

namespace Reader

/-- the next `n` bytes -/
def take (n : Nat) : Reader Bytes := fun bs =>
  match Bytes.split? n bs with
  | some (front, rest) => .ok (front, rest)
  | none => .error .endOfInput

/-- a number of fixed width -/
def word (width : Nat) : Reader Nat := do
  return Bytes.toNatLE (← take width)

/-- a count or length in its shortest form -/
def compactSize : Reader Nat := do
  let first ← word 1
  if first < 0xfd then return first
  let (width, least) := if first = 0xfd then (2, 0xfd) else if first = 0xfe then (4, 0x10000) else (8, 0x100000000)
  let n ← word width
  if n < least then throw .longCount
  return n

/-- a byte string after its length -/
def lengthPrefixed : Reader Bytes := do
  take (← compactSize)

/-- `n` things in a row -/
def many {α : Type} (reader : Reader α) : Nat → Reader (List α)
  | 0 => return []
  | n + 1 => do
    let x ← reader
    let xs ← many reader n
    return x :: xs

/-- a list after its length -/
def counted {α : Type} (reader : Reader α) : Reader (List α) := do
  many reader (← compactSize)

/-- the identifier of a transaction -/
def txid : Reader TxId := fun bs =>
  match h : Bytes.split? 32 bs with
  | some (front, rest) => .ok (⟨front, (Bytes.split?_eq_some_iff.mp h).2⟩, rest)
  | none => .error .endOfInput

/-- an input, still without its witness -/
def input : Reader Input := do
  let id ← txid
  let index ← word 4
  let script ← lengthPrefixed
  let sequence ← word 4
  return ⟨⟨id, UInt32.ofNat index⟩, script, UInt32.ofNat sequence, []⟩

/-- an output -/
def output : Reader Output := do
  let value ← word 8
  let script ← lengthPrefixed
  return ⟨UInt64.ofNat value, script⟩

/-- the last `left` items of a witness of `count` items, the earlier of which take up `used` bytes -/
def witnessItems (count : Nat) : (left used : Nat) → Reader (List Bytes)
  | 0, _ => return []
  | left + 1, used => do
    let length ← compactSize
    let used := used + length + CompactSize.size length
    if UInt64.size ≤ 4 * count + used then throw (.oversizedWitness (UInt64.size - 1))
    if witnessLimit < used then throw (.oversizedWitness (4 * count + used))
    let item ← take length
    let items ← witnessItems count left used
    return item :: items

/-- a witness -/
def witness : Reader (List Bytes) := do
  let count ← compactSize
  if witnessLimit < count then throw (.oversizedWitness count)
  witnessItems count count 0

/-- what follows the inputs in the plain form -/
def plainForm (version : Int32) (inputs : List Input) : Reader Transaction := do
  let outputs ← counted output
  let lockTime ← word 4
  return ⟨version, inputs, outputs, UInt32.ofNat lockTime⟩

/-- what follows the marker of the form with witnesses -/
def witnessForm (version : Int32) : Reader Transaction := do
  let flag ← word 1
  if flag ≠ 1 then throw (.unknownFlag (UInt8.ofNat flag))
  let inputs ← counted input
  let outputs ← counted output
  let witnesses ← many witness inputs.length
  if !inputs.isEmpty && witnesses.all List.isEmpty then throw .noWitness
  let lockTime ← word 4
  let inputs := inputs.zipWith (fun input witness => { input with witness }) witnesses
  return ⟨version, inputs, outputs, UInt32.ofNat lockTime⟩

/-- a transaction. An empty list of inputs is the marker of the form with witnesses. -/
def transaction : Reader Transaction := do
  let version := (UInt32.ofNat (← word 4)).toInt32
  let inputs ← counted input
  if inputs.isEmpty then witnessForm version else plainForm version inputs

end Reader

/-- the transaction whose written form is the whole of a byte string -/
def decode (bs : Bytes) : Except DecodeError Transaction :=
  match Reader.transaction bs with
  | .ok (tx, []) => .ok tx
  | .ok (_, _ :: _) => .error .trailingBytes
  | .error e => .error e

end BitcoinScript.Transaction
