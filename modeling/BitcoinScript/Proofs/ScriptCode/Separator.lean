/-
The script code of every check of signatures. Where it starts is a byte offset that each executed separator sets, so
along a run it is the offset of the operation after the last separator that was executed; one that was skipped does not
count. What is left out of it is known by operations too.

Results:
- `execute_codeStart`: only an executed separator moves the start of the script code.
- `State.next_placed`: along a run the start is the one after the last executed separator.
- `Program.scriptCode_offset`: the script code from the offset of an operation on, as operations.
- `SignatureOp.Takes.apply_eq`: a check leaves out all the signatures that it takes.
- `script_code_after_separator`: so after any calls, a check of signatures is one for these operations. Let `s` be the
  state of the run, or the one it begins with;
  - the script code starts where an operation begins that comes no later than the next one, and the bytes of the
    operations are those of the script;
  - while the run has not ended, let `j` be the place of the last separator that was executed before the next operation:
    for any signatures, the script code is made of the operations after `j` that are no separators and no shortest
    pushes of one of the signatures, in their order and as they are written;
  - an opcode that checks signatures, if it is executed there with a transaction and with the items that it needs, is
    carried out with the verdicts for that script code; the signatures left out of it are the one that is checked, or
    all that are taken off with their keys.
-/
import Mathlib.Data.List.Induction
import BitcoinScript.Proofs.ScriptCode.Offsets
import BitcoinScript.Proofs.StackLimit

namespace BitcoinScript

/-! ## Which operations are signed -/

/-- the shortest push of at most 65535 bytes -/
def shortestPush (data : Bytes) : Bytes :=
  if data.length ≤ 75 then UInt8.ofNat data.length :: data
  else if data.length ≤ 255 then 0x4c :: UInt8.ofNat data.length :: data
  else 0x4d :: UInt8.ofNat data.length :: UInt8.ofNat (data.length / 256) :: data

theorem canonicalPush_eq {data : Bytes} (h : data.length < 0x10000) : canonicalPush data = shortestPush data := by
  unfold canonicalPush shortestPush
  by_cases hdirect : data.length < 0x4c
  · have hle : data.length ≤ 75 := Nat.le_of_lt_succ hdirect
    rw [if_pos hdirect, if_pos hle]
  · have hnot : ¬ data.length ≤ 75 := fun hle => hdirect (Nat.lt_succ_of_le hle)
    rw [if_neg hdirect, if_neg hnot]
    by_cases hone : data.length < 0x100
    · have hle : data.length ≤ 255 := Nat.le_of_lt_succ hone
      rw [if_pos hone, if_pos hle]
      rfl
    · have hnot' : ¬ data.length ≤ 255 := fun hle => hone (Nat.lt_succ_of_le hle)
      rw [if_neg hone, if_neg hnot', if_pos h]
      rfl

theorem length_le_canonicalPush (data : Bytes) : data.length ≤ (canonicalPush data).length := by
  unfold canonicalPush
  split
  · exact Nat.le_succ _
  · split
    · rw [List.length_append]
      exact Nat.le_add_left _ _
    · split <;> rw [List.length_append] <;> exact Nat.le_add_left _ _

theorem length_le_shortestPush (data : Bytes) : data.length ≤ (shortestPush data).length := by
  unfold shortestPush
  split
  · exact Nat.le_add_right _ 1
  · split
    · exact Nat.le_add_right _ 2
    · exact Nat.le_add_right _ 3

theorem canonicalPush_beq {data raw : Bytes} (h : raw.length < 0x10000) :
    (canonicalPush data == raw) = (shortestPush data == raw) := by
  by_cases hdata : data.length < 0x10000
  · rw [canonicalPush_eq hdata]
  · have hcanonical : canonicalPush data ≠ raw := by
      rintro rfl
      exact hdata (Nat.lt_of_le_of_lt (length_le_canonicalPush data) h)
    have hshortest : shortestPush data ≠ raw := by
      rintro rfl
      exact hdata (Nat.lt_of_le_of_lt (length_le_shortestPush data) h)
    rw [beq_eq_false_iff_ne.2 hcanonical, beq_eq_false_iff_ne.2 hshortest]

namespace Program

/-- the script code after operation `j`, or of all operations: those that are no separators and no shortest pushes of
the signatures, each in its own bytes of the script -/
def codeAfter (program : Program) (j? : Option Nat) (signatures : List Bytes) : Bytes :=
  ((List.range program.length).filter fun k =>
      j?.all (· < k) && program.operations[k]? != some (.code .codeSeparator) &&
        !(signatures.any fun signature => shortestPush signature == program.rawOp k)).flatMap
    program.rawOp

end Program

theorem flatMap_filter_range {α β : Type} {items : List α} {p : α → Bool} {f : α → List β} {q : Nat → Bool}
    {g : Nat → List β} (h : ∀ k (hk : k < items.length), q k = p items[k] ∧ g k = f items[k]) :
    ((List.range items.length).filter q).flatMap g = (items.filter p).flatMap f := by
  induction items using List.reverseRecOn with
  | nil => rfl
  | append_singleton items item ih =>
    have hbefore : ∀ k (hk : k < items.length), q k = p items[k] ∧ g k = f items[k] := by
      intro k hk
      have hk' := h k (by rw [List.length_append]; omega)
      rwa [List.getElem_append_left hk] at hk'
    obtain ⟨hq, hg⟩ := h items.length (by rw [List.length_append]; exact Nat.lt_succ_self _)
    rw [List.getElem_concat_length rfl] at hq hg
    rw [List.length_append, List.length_singleton, List.range_succ, List.filter_append, List.filter_append,
      List.flatMap_append, List.flatMap_append, ih hbefore, List.filter_cons, List.filter_cons, hq]
    cases p item with
    | false => rfl
    | true =>
      rw [if_pos rfl, if_pos rfl, List.filter_nil, List.filter_nil, List.flatMap_singleton, List.flatMap_singleton, hg]

/-- the script code from the offset of the operation after `j` on is made of the operations after `j` -/
theorem Program.Consecutive.scriptCode_offset {program : Program} (h : program.Consecutive)
    (hlimit : program.bytes.length ≤ scriptLimit) (j? : Option Nat) (signatures : List Bytes) :
    program.scriptCode (program.offset (j?.elim 0 (· + 1))) signatures = program.codeAfter j? signatures := by
  rw [scriptCode, h.chunksFrom_eq_filter, List.filter_filter]
  symm
  refine flatMap_filter_range ?_
  intro k hk
  have hget : program.chunks[k]? = some program.chunks[k] := List.getElem?_eq_getElem hk
  have hoffset : program.offset k = program.chunks[k].offset := by rw [offset, hget]
  have hafter : j?.all (· < k) = decide (program.offset (j?.elim 0 (· + 1)) ≤ program.chunks[k].offset) := by
    rw [← hoffset]
    cases j? with
    | none => exact (decide_eq_true (h.offset_mono (Nat.zero_le k))).symm
    | some j => exact decide_eq_decide.2 (h.offset_le_offset_iff hk).symm
  have hoperation : program.operations[k]? = some program.chunks[k].operation := by
    rw [operations, List.getElem?_map, hget]
    rfl
  have hshort : program.chunks[k].raw.length < 0x10000 := by
    have hend : program.offset (k + 1) ≤ program.bytes.length := offset_length program ▸ h.offset_mono hk
    rw [h.offset_succ hget] at hend
    unfold scriptLimit at hlimit
    omega
  refine ⟨?_, h.rawOp_eq_raw hget⟩
  have hseparator : (some program.chunks[k].operation != some (.code .codeSeparator)) =
      (program.chunks[k].operation != .code .codeSeparator) := rfl
  simp only [hafter, hoperation, hseparator, h.rawOp_eq_raw hget, Chunk.isSigned, canonicalPush_beq hshort]
  rw [Bool.and_assoc, Bool.and_comm]

/-! ## The last executed separator -/

/-- the state before operation `n`, if the run comes there -/
def Context.reach (ctx : Context) : (n : Nat) → Option State
  | 0 => some .initial
  | n + 1 => do
    match (← ctx.reach n).next ctx with
    | (s, .continued _) => some s
    | (_, .ended _) => none

/-- whether operation `k` is a separator that is executed -/
def Context.separates (ctx : Context) (k : Nat) : Bool :=
  ctx.program.operations[k]? == some (.code .codeSeparator) && (ctx.reach k).any State.executing

/-- the last separator that is executed before operation `n` -/
def Context.lastSeparator? (ctx : Context) (n : Nat) : Option Nat :=
  ((List.range n).filter ctx.separates).getLast?

theorem Context.reach_succ {ctx : Context} {n : Nat} {s s' : State} {step : Step} (h : ctx.reach n = some s)
    (hn : s.next ctx = (s', .continued step)) : ctx.reach (n + 1) = some s' := by
  rw [reach, h]
  show (match s.next ctx with
    | (s, .continued _) => some s
    | (_, .ended _) => none) = _
  rw [hn]

theorem Context.separates_eq {ctx : Context} {n : Nat} {s : State} {operation : Operation} (h : ctx.reach n = some s)
    (hop : ctx.program.operations[n]? = some operation) :
    ctx.separates n = (operation == .code .codeSeparator && s.executing) := by
  rw [separates, hop, h]
  rfl

theorem Context.lastSeparator?_succ (ctx : Context) (n : Nat) :
    ctx.lastSeparator? (n + 1) = if ctx.separates n then some n else ctx.lastSeparator? n := by
  rw [lastSeparator?, List.range_succ, List.filter_append, List.filter_cons, List.filter_nil]
  split
  · rw [List.getLast?_concat]
  · rw [List.append_nil, lastSeparator?]

section

variable {ctx : Context} {operation : Operation} {s s' : State} {action : Action}

theorem Operation.Carried.codeStart (h : operation.Carried ctx s s' action) :
    (operation = .code .codeSeparator ∧ s.executing ∧ s' = { s with codeStart := ctx.program.offset (s.pc + 1) }) ∨
      (operation ≠ .code .codeSeparator ∧ s'.codeStart = s.codeStart) := by
  cases h with
  | push data hx => exact .inr ⟨nofun, rfl⟩
  | @code op instruction _ _ hd hi hx hr ha =>
    have hother : instruction ≠ .codeSeparator → Operation.code op ≠ .code .codeSeparator := by
      rintro hne ⟨⟩
      exact hne (Option.some.inj hi).symm
    cases Instruction.apply_eq_ok_iff.1 ha with
    | codeSeparator =>
      have hexecuting : s.executing = true := (Bool.or_eq_true_iff.1 hx).resolve_right Bool.false_ne_true
      have hop : op = .codeSeparator := Opcode.eq_of_instruction? hi (by decide)
      exact .inl ⟨congrArg Operation.code hop, hexecuting, rfl⟩
    | flow hf =>
      obtain ⟨main, branches, -, rfl⟩ := FlowOp.apply_eq_ok hf
      exact .inr ⟨hother nofun, rfl⟩
    | stack _ | toAlt _ | fromAlt _ | signature _ _ => exact .inr ⟨hother nofun, rfl⟩

/-- only an executed separator moves the start of the script code -/
theorem execute_codeStart (h : execute ctx operation s = (s', .ok action)) :
    s'.codeStart =
      if operation == .code .codeSeparator && s.executing then ctx.program.offset (s.pc + 1) else s.codeStart := by
  rcases execute_eq_ok h with ⟨rfl, hk⟩ | ⟨hc, -⟩
  · have hx : s'.executing = false := by cases hk <;> assumption
    rw [hx, Bool.and_false]
    rfl
  · rcases hc.codeStart with ⟨rfl, hx, rfl⟩ | ⟨hne, hstart⟩
    · rw [hx]
      rfl
    · rw [beq_eq_false_iff_ne.2 hne, hstart]
      rfl

/-- an operation that fails leaves the start of the script code where it was: a separator adds no item -/
theorem execute_codeStart_of_error {failure : Failure} (hs : s.items ≤ stackLimit)
    (h : execute ctx operation s = (s', .error failure)) : s'.codeStart = s.codeStart := by
  rcases execute_eq_error h with ⟨rfl, -⟩ | ⟨action, hc, -, hlt⟩
  · rfl
  · rcases hc.codeStart with ⟨-, -, rfl⟩ | ⟨-, hstart⟩
    · exact absurd hs (Nat.not_le.2 hlt)
    · exact hstart

end

/-! ## Runs -/

/-- where the script code starts for a run that stands at a state -/
structure State.Placed (ctx : Context) (s : State) (ending? : Option Ending) : Prop where
  limited : s.Limited ending?
  /-- where an operation begins, and none that comes later than the next -/
  boundary : ∃ k ≤ s.pc, s.codeStart = ctx.program.offset k
  reached : ending? = none → ctx.reach s.pc = some s
  /-- after the last executed separator -/
  after : ending? = none → s.codeStart = ctx.program.offset ((ctx.lastSeparator? s.pc).elim 0 (· + 1))

theorem State.initial_placed {ctx : Context} (h : ctx.program.Consecutive) : State.initial.Placed ctx none where
  limited := .inl ⟨Nat.zero_le _, nofun⟩
  boundary := ⟨0, Nat.le_refl 0, (h.offset_eq 0).symm⟩
  reached _ := rfl
  after _ := (h.offset_eq 0).symm

/-- one step keeps the place of the script code -/
theorem State.next_placed (ctx : Context) (s : State) (h : s.Placed ctx none) :
    (s.next ctx).1.Placed ctx (s.next ctx).2.ending? := by
  have hlimited : (s.next ctx).1.Limited (s.next ctx).2.ending? := State.next_limited ctx s h.limited
  obtain ⟨k, hk, hstart⟩ := h.boundary
  rcases State.next_cases ctx s with
    ⟨operation, s', action, hop, he, hn⟩ | ⟨operation, s', failure, hop, he, hn⟩ | ⟨-, -, hn⟩ | ⟨-, -, hn⟩
  · have hpc : s'.pc = s.pc := execute_pc_eq he
    have hreach : ctx.reach (s.pc + 1) = some s'.advance := Context.reach_succ (h.reached rfl) hn
    have hmoved : s'.codeStart = if ctx.separates s.pc then ctx.program.offset (s.pc + 1) else s.codeStart := by
      rw [Context.separates_eq (h.reached rfl) hop]
      exact execute_codeStart he
    rw [hn] at hlimited ⊢
    refine ⟨hlimited, ?_, fun _ => ?_, fun _ => ?_⟩
    · show ∃ k ≤ s'.pc + 1, s'.codeStart = ctx.program.offset k
      rw [hpc, hmoved]
      split
      · exact ⟨s.pc + 1, Nat.le_refl _, rfl⟩
      · exact ⟨k, Nat.le_succ_of_le hk, hstart⟩
    · show ctx.reach (s'.pc + 1) = some s'.advance
      rw [hpc, hreach]
    · show s'.codeStart = ctx.program.offset ((ctx.lastSeparator? (s'.pc + 1)).elim 0 (· + 1))
      rw [hpc, hmoved, Context.lastSeparator?_succ]
      split
      · rfl
      · exact h.after rfl
  · have hpc : s'.pc = s.pc := execute_pc_eq he
    rw [hn] at hlimited ⊢
    refine ⟨hlimited, ⟨k, ?_, ?_⟩, nofun, nofun⟩
    · rw [hpc]
      exact hk
    · rw [execute_codeStart_of_error h.limited.items_le he]
      exact hstart
  · rw [hn] at hlimited ⊢
    exact ⟨hlimited, h.boundary, nofun, nofun⟩
  · rw [hn] at hlimited ⊢
    exact ⟨hlimited, h.boundary, nofun, nofun⟩

/-! ## The signatures that are left out -/

/-- the signatures of a check with this stack: the one below the key, or those below their keys and the two counts -/
inductive SignatureOp.Takes (strict : Bool) : SignatureOp → Stack → (signatures : List Bytes) → Prop where
  | one {verify : Bool} {key signature : Bytes} {rest : Stack} :
      Takes strict (.one verify) (key :: signature :: rest) [signature]
  | many {verify : Bool} {keyCount signatureCount unused : Bytes} {keys signatures : List Bytes} {rest : Stack}
      (hkeys : Number.read keyCount operandLimit strict = .ok (keys.length : Int))
      (hsignatures : Number.read signatureCount operandLimit strict = .ok (signatures.length : Int))
      (hlimit : keys.length ≤ 20) (hle : signatures.length ≤ keys.length) :
      Takes strict (.many verify) (keyCount :: (keys ++ signatureCount :: (signatures ++ unused :: rest))) signatures

/-- a check asks for verdicts with these signatures left out -/
theorem SignatureOp.Takes.apply_eq {strict : Bool} {check : SignatureOp} {main : Stack} {signatures : List Bytes}
    (h : check.Takes strict main signatures) (verdict : List Bytes → Verdict) :
    check.apply strict verdict main = check.apply strict (fun _ => verdict signatures) main := by
  cases h with
  | one => rfl
  | @many _ keyCount signatureCount unused keys _ rest hkeys hsignatures hlimit hle =>
    have ho := ManyOperands.take_eq_ok_iff (o := ⟨keys, signatures, rest⟩).2
      ⟨keyCount, signatureCount, unused, rfl, hkeys, hsignatures, hlimit, hle⟩
    simp only [SignatureOp.apply, SignatureOp.applyMany, ho]
    rfl

/-- **The script code of a check of signatures is made of the operations after the last executed separator.** After any
calls, it starts at an operation, and while the run goes on, it is that of the operations after the last separator that
was executed; and an opcode that checks signatures asks for verdicts on it, with all its signatures left out. -/
theorem script_code_after_separator (script : Bytes) (spend : Option Spend) (strict : Bool) (calls : List Call)
    (program : Program) :
    let history := (History.new script spend strict).calls calls
    let session := history.session
    let s := session.run.state?.getD .initial
    let ctx : Context := ⟨program, session.spend, session.strict⟩
    let code := program.codeAfter (ctx.lastSeparator? s.pc)
    session.run.script = .ok program →
      (∃ k ≤ s.pc, s.codeStart = program.offset k) ∧
      program.bytes = history.script ∧
      (session.run.ending? = none → ∀ signatures, program.scriptCode s.codeStart signatures = code signatures) ∧
      (session.run.ending? = none → ∀ (op : Opcode) (check : SignatureOp) (bound : Spend),
        op.instruction? = some (.signature check) → session.spend = some bound → s.executing →
        check.depth ≤ s.main.length →
        execute ctx (.code op) s =
          op.conclude s
            ((check.apply ctx.strict
              (fun signatures signature key => bound.checkSignature signature key (code signatures)) s.main).map
              fun (main, action) => ({ s with main }, action)) ∧
        ∀ signatures, check.Takes ctx.strict s.main signatures →
          execute ctx (.code op) s =
            op.conclude s
              ((check.apply ctx.strict
                (fun _ signature key => bound.checkSignature signature key (code signatures)) s.main).map
                fun (main, action) => ({ s with main }, action))) := by
  intro history session s ctx code hp
  have hfollows : history.Follows strict := (History.Follows.new script spend strict).calls calls
  obtain ⟨hcons, hbytes, hlimit⟩ := Program.of_decode (hfollows.script_eq.symm.trans hp)
  have hreach : session.Has fun ctx s ending? => ctx.program.Consecutive → s.Placed ctx ending? :=
    History.state_invariant (fun ctx => State.initial_placed)
      (fun ctx s h hcons => State.next_placed ctx s (h hcons)) script spend strict calls
  have hplaced : ∃ ending?, s.Placed ctx ending? ∧ (session.run.ending? = none → ending? = none) := by
    cases hs : session.run.state? with
    | none =>
      have hinitial : s = .initial := congrArg (Option.getD · State.initial) hs
      rw [hinitial]
      exact ⟨none, State.initial_placed hcons, fun _ => rfl⟩
    | some s' =>
      have hs' : s = s' := congrArg (Option.getD · State.initial) hs
      obtain ⟨program', hp', hplaced⟩ := hreach s' hs
      cases hp.symm.trans hp'
      rw [hs']
      exact ⟨session.run.ending?, hplaced hcons, id⟩
  obtain ⟨ending?, hplaced, hnone⟩ := hplaced
  have hcode : session.run.ending? = none →
      ∀ signatures, program.scriptCode s.codeStart signatures = code signatures := by
    intro hrun signatures
    rw [hplaced.after (hnone hrun)]
    exact hcons.scriptCode_offset (hbytes ▸ hlimit) _ signatures
  refine ⟨hplaced.boundary, hbytes, hcode, ?_⟩
  intro hrun op check bound hi hbound hx hdepth
  have hcheck : ctx.check bound s.codeStart =
      fun signatures signature key => bound.checkSignature signature key (code signatures) := by
    funext signatures signature key
    rw [Context.check, hcode hrun signatures]
  have hspend : ctx.spend = some bound := hbound
  have hexecute := execute_signature_eq hi hspend hx hdepth
  rw [hcheck] at hexecute
  refine ⟨hexecute, fun signatures htakes => ?_⟩
  rw [hexecute, htakes.apply_eq]

/-- one separator that is executed and one that is not, before a check of a key that is none -/
theorem script_code_after_separator_skipped :
    let input : Input := ⟨⟨⟨List.replicate 32 0, rfl⟩, 0⟩, [], 0, []⟩
    let spend : Spend := ⟨⟨1, [input], [], 0⟩, 0, Nat.zero_lt_one⟩
    let script : Bytes := [0x51, 0xab, 0x00, 0x63, 0xab, 0x68, 0x51, 0xac]
    let program : Program :=
      ⟨[⟨0, [0x51], .code ⟨0x51⟩⟩, ⟨1, [0xab], .code ⟨0xab⟩⟩, ⟨2, [0x00], .push []⟩, ⟨3, [0x63], .code ⟨0x63⟩⟩,
        ⟨4, [0xab], .code ⟨0xab⟩⟩, ⟨5, [0x68], .code ⟨0x68⟩⟩, ⟨6, [0x51], .code ⟨0x51⟩⟩, ⟨7, [0xac], .code ⟨0xac⟩⟩]⟩
    let session := ((History.new script (some spend) false).calls (List.replicate 7 .step)).session
    let s : State := ⟨[[1], [1]], [], .none, 7, 2⟩
    session.run.script = .ok program ∧ session.run.state? = some s ∧ session.run.ending? = none ∧
      program.scriptCode s.codeStart [[1]] = [0x00, 0x63, 0x68, 0x51, 0xac] ∧
      execute ⟨program, some spend, false⟩ (.code ⟨0xac⟩) s = ({ s with main := [[]] }, .ok (.checked [1] false)) := by
  intro input spend script program session s
  have hp : session.run.script = .ok program := Run.script_of_program? (by decide +kernel)
  have hs : session.run.state? = some s := by decide +kernel
  have hrun : session.run.ending? = none := by decide +kernel
  have hstate : session.run.state?.getD .initial = s := by rw [hs, Option.getD_some]
  obtain ⟨-, -, hcode, hexecute⟩ :=
    script_code_after_separator script (some spend) false (List.replicate 7 .step) program hp
  have hcode' : program.scriptCode s.codeStart [[1]] = [0x00, 0x63, 0x68, 0x51, 0xac] := by
    rw [← hstate, hcode hrun [[1]]]
    decide +kernel
  refine ⟨hp, hs, hrun, hcode', ?_⟩
  rw [← hstate]
  obtain ⟨-, hleft⟩ := hexecute hrun ⟨0xac⟩ (.one false) spend rfl rfl (by rw [hstate]; rfl) (by rw [hstate]; decide)
  refine (hleft [[1]] (by rw [hstate]; exact .one)).trans ?_
  rw [hstate]
  rfl

end BitcoinScript
