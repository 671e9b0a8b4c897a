import BitcoinScript.Main
import BitcoinScript.Proofs.Conditional.Selection
import BitcoinScript.Proofs.StackLimit
import BitcoinScript.Proofs.Conditional.Balance
import BitcoinScript.Proofs.Conditional.Skipping
import BitcoinScript.Proofs.Session.Phases
import BitcoinScript.Proofs.Frame
import BitcoinScript.Proofs.Multisig
import BitcoinScript.Proofs.Number.Codec
import BitcoinScript.Proofs.ScriptCode.Offsets
import BitcoinScript.Proofs.ScriptCode.Separator
import BitcoinScript.Proofs.ScriptCode.Removal
import BitcoinScript.Proofs.Decoding.Concatenation
import BitcoinScript.Proofs.Transaction.Binding
import BitcoinScript.Proofs.Transaction.Commitment
import BitcoinScript.Proofs.TwoRuns.Strictness
import BitcoinScript.Proofs.TwoRuns.Spend
import BitcoinScript.Proofs.TwoRuns.Extension
import BitcoinScript.Proofs.Number.Arithmetic
import BitcoinScript.Proofs.VerifyForms
import BitcoinScript.Proofs.Rearrangement
import BitcoinScript.Proofs.Underflow
import BitcoinScript.Proofs.Session.Summary
import BitcoinScript.Proofs.ItemSize
import BitcoinScript.Proofs.Transaction.Malleability
import BitcoinScript.Proofs.Component
import BitcoinScript.Proofs.CommandLine.Agreement
import BitcoinScript.Proofs.Conditional.Record
import BitcoinScript.Proofs.Number.Truth
