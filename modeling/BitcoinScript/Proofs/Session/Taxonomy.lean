/-
How the run of a decoded script can fail, and where. A failure is of the operation that the run stands at, which is
refused, or leaves too many items on the stacks; or it comes at the end of the script, for blocks that are open there.
What can go wrong before a run, with the script or with the transaction, does not go wrong in it.

Results:
- `State.next_failed`: the three ways in which a step fails.
- `Transaction.signatureHash_fails_iff`: a signature hash fails for an input that cannot be bound.
- `failure_taxonomy`: so a bound transaction has a verdict on every signature. A failure among the outcomes of any calls
  is that of the step from some state that the run came to, and the state is still the one that this step left, with the
  same index of the next operation.
  - It is no failure of decoding a push, of decoding a transaction, or of an index of an input.
  - It is for open blocks if and only if the index is the number of operations, and for anything else if and only if it
    is less.
  - It is for a size only if the operation there was carried out with the stacks within the limit, and left them past
    it.
-/
import BitcoinScript.Proofs.Session.Phases
import BitcoinScript.Proofs.Session.Reach

namespace BitcoinScript

/-! ## A step that fails -/

theorem State.next_failed {ctx : Context} {s s' : State} {failure : Failure}
    (h : s.next ctx = (s', .ended (.failed failure))) :
    (∃ operation, ctx.program.operations[s.pc]? = some operation ∧ s' = s ∧ operation.Refused ctx s failure) ∨
      (∃ operation action, ctx.program.operations[s.pc]? = some operation ∧ operation.Carried ctx s s' action ∧
        failure = .tooManyItems s'.items ∧ stackLimit < s'.items) ∨
      (ctx.program.operations.length ≤ s.pc ∧ s' = s ∧ failure = .unclosedBlocks s.branches.count) := by
  rcases next_cases ctx s with
    ⟨_, _, _, -, -, hn⟩ | ⟨operation, t, failure', hop, he, hn⟩ | ⟨-, -, hn⟩ | ⟨hlen, -, hn⟩ <;> cases h.symm.trans hn
  · rcases execute_eq_error he with ⟨rfl, hr⟩ | ⟨action, hc, hf, hlt⟩
    · exact .inl ⟨operation, hop, rfl, hr⟩
    · exact .inr (.inl ⟨operation, action, hop, hc, hf, hlt⟩)
  · exact .inr (.inr ⟨hlen, rfl, rfl⟩)

/-! ## Signature hashes -/

theorem Transaction.signatureHash_fails_iff (tx : Transaction) (index : Nat) (code : Bytes) (hashType : UInt32) :
    (∃ failure, tx.signatureHash index code hashType = .error failure) ↔
      ∃ failure, Spend.ofTransaction tx index = .error failure := by
  rw [signatureHash, Spend.ofTransaction]
  by_cases hlt : index < tx.inputs.length
  · rw [if_neg (Nat.not_le.2 hlt), dif_pos hlt]
    refine iff_of_false ?_ ?_
    · rintro ⟨failure, h⟩
      split at h <;> cases h
    · rintro ⟨failure, h⟩
      cases h
  · rw [if_pos (Nat.not_lt.1 hlt), dif_neg hlt]
    exact iff_of_true ⟨_, rfl⟩ ⟨_, rfl⟩

/-! ## Runs -/

/-- the kinds of failure for which no run of a decoded script fails -/
def outerKinds : List FailureKind :=
  [.invalidPushLength, .malformedTransaction, .inputIndexOutOfRange]

/-- the run of a program fails from the state `s` on, and leaves `s'`: where this is, and for what -/
structure Context.FailsFrom (ctx : Context) (s s' : State) (failure : Failure) : Prop where
  reached : ctx.reach s.pc = some s
  pc_eq : s'.pc = s.pc
  inner : failure.kind ∉ outerKinds
  /-- at the end, for blocks that are open -/
  unbalanced : failure.kind = .unbalancedIf ↔ s'.pc = ctx.program.length
  /-- for anything else, at an operation -/
  other : failure.kind ≠ .unbalancedIf ↔ s'.pc < ctx.program.length
  /-- for too many items, after the operation that brought them there -/
  oversized : failure.kind = .scriptSizeExceeded → s.items ≤ stackLimit ∧ stackLimit < s'.items ∧
    ∃ operation, ctx.program.operations[s.pc]? = some operation ∧ execute ctx operation s = (s', .error failure)

/-- a step that fails from where the run has come to -/
theorem Context.failsFrom_of_next {ctx : Context} {s s' : State} {failure : Failure} (hreach : ctx.reach s.pc = some s)
    (hn : s.next ctx = (s', .ended (.failed failure))) : ctx.FailsFrom s s' failure := by
  have hlength : ctx.program.operations.length = ctx.program.length := List.length_map _
  have hlast : s.pc ≤ ctx.program.length := pc_le_of_reach hreach
  have hpc : s'.pc = s.pc := by
    have hpc := State.pc_next ctx s
    rw [hn] at hpc
    exact hpc
  have hat : ∀ {operation}, ctx.program.operations[s.pc]? = some operation → s'.pc < ctx.program.length := by
    intro operation hop
    rw [hpc, ← hlength]
    exact (List.getElem?_eq_some_iff.1 hop).1
  rcases State.next_failed hn with
    ⟨operation, hop, -, hr⟩ | ⟨operation, action, hop, hc, rfl, hlt⟩ | ⟨hlen, -, rfl⟩
  · have hkinds : ∀ kind ∈ refusalKinds, kind ∉ outerKinds ∧ kind ≠ .unbalancedIf ∧ kind ≠ .scriptSizeExceeded := by
      decide
    obtain ⟨hinner, hbalance, hsize⟩ := hkinds _ hr.kind_mem
    exact ⟨hreach, hpc, hinner, iff_of_false hbalance (Nat.ne_of_lt (hat hop)), iff_of_true hbalance (hat hop),
      fun hk => absurd hk hsize⟩
  · have hbalance : (Failure.tooManyItems s'.items).kind ≠ .unbalancedIf := nofun
    refine ⟨hreach, hpc, show FailureKind.scriptSizeExceeded ∉ outerKinds by decide,
      iff_of_false hbalance (Nat.ne_of_lt (hat hop)), iff_of_true hbalance (hat hop), fun _ => ?_⟩
    exact ⟨items_le_of_reach hreach, hlt, operation, hop, hc.execute_eq.trans (State.sized_of_lt hlt action)⟩
  · have hend : s'.pc = ctx.program.length := by omega
    exact ⟨hreach, hpc, show FailureKind.unbalancedIf ∉ outerKinds by decide, iff_of_true rfl hend,
      iff_of_false (fun hne => hne rfl) (Nat.not_lt.2 (Nat.le_of_eq hend.symm)), nofun⟩

/-- **How runs fail.** A signature hash fails for an input if and only if this input of the transaction cannot be bound,
so every bound transaction has a verdict on every signature. A failure among the outcomes of any calls is that of a step
from where the run had come to, and the state is still the one that this step left. -/
theorem failure_taxonomy (script : Bytes) (spend : Option Spend) (strict : Bool) (calls : List Call) :
    (∀ tx index code hashType, (∃ failure, Transaction.signatureHash tx index code hashType = .error failure) ↔
      ∃ failure, Spend.ofTransaction tx index = .error failure) ∧
    (∀ (bound : Spend) signature key code, ∃ valid, bound.checkSignature signature key code = .ok valid) ∧
    let h := (History.new script spend strict).calls calls
    ∀ program failure, Program.decode h.script = .ok program → .ended (.failed failure) ∈ h.log →
      ∃ s s', h.session.run.state? = some s' ∧ Context.FailsFrom ⟨program, h.spend, strict⟩ s s' failure := by
  refine ⟨Transaction.signatureHash_fails_iff, Spend.checkSignature_eq_ok, ?_⟩
  intro h program failure hp hfailed
  have hend : h.session.run.ending? = some (.failed failure) :=
    (History.ended_mem_log_iff script spend strict calls _).1 hfailed
  have hfollows : h.Follows strict := (History.Follows.new script spend strict).calls calls
  obtain ⟨s', hs'⟩ := History.state_of_ended script spend strict calls program (hfollows.script_eq.trans hp)
    (hend ▸ Option.some_ne_none _)
  have hstands := History.stands_of_decode hp hs'
  rw [hend] at hstands
  cases hstands with
  | @after s _ _ hreach hn => exact ⟨s, s', hs', Context.failsFrom_of_next hreach hn⟩

/-- a check of a signature that is none leaves a false item, and the verify after it fails, as the last of four
operations -/
theorem failure_taxonomy_verify :
    let input : Input := ⟨⟨⟨List.replicate 32 0, rfl⟩, 0⟩, [], 0, []⟩
    let spend : Spend := ⟨⟨1, [input], [], 0⟩, 0, Nat.zero_lt_one⟩
    let h := (History.new [0x51, 0x51, 0xac, 0x69] (some spend) false).calls [.finish]
    let program : Program :=
      ⟨[⟨0, [0x51], .code ⟨0x51⟩⟩, ⟨1, [0x51], .code ⟨0x51⟩⟩, ⟨2, [0xac], .code ⟨0xac⟩⟩, ⟨3, [0x69], .code ⟨0x69⟩⟩]⟩
    let failure : Failure := .within "OP_VERIFY" (.falseItem [])
    Program.decode h.script = .ok program ∧ .ended (.failed failure) ∈ h.log ∧
      ∃ s s', h.session.run.state? = some s' ∧ Context.FailsFrom ⟨program, h.spend, false⟩ s s' failure ∧
        s'.pc < program.length := by
  intro input spend h program failure
  have hp : Program.decode h.script = .ok program := by decide +kernel
  have hfailed : .ended (.failed failure) ∈ h.log := by decide +kernel
  obtain ⟨s, s', hs', hfails⟩ :=
    (failure_taxonomy [0x51, 0x51, 0xac, 0x69] (some spend) false [.finish]).2.2 program failure hp hfailed
  exact ⟨hp, hfailed, s, s', hs', hfails, hfails.other.1 (by decide)⟩

end BitcoinScript
