/-
Code that is skipped. Inside a block that is not taken, what an operation comes to depends on the record of open blocks
alone, and changes nothing but this record. It fails only if it is disabled or turns a block that is turned already.
Blocks that are opened there do not end the skipping: the outermost block that is not taken lies outside of them.

Results:
- `execute_eq_pass`: an operation where it is not executed.
- `Operation.pass_eq_error_iff`: the failures it has there.
- `Context.built_of_reach`: along every run the record of open blocks is built by opening, turning and closing blocks.
- `Opcode.names_disabled`: the opcodes that may not even be skipped.
- `skipped_code_inert`: so along operations that are all skipped, from a state with its stacks within their limit,
  - the two stacks and the start of the script code stay as they are;
  - an operation fails if and only if it is disabled, or turns the innermost open block a second time, which is told so;
  - the open blocks, what the operations do and the failure are the same with any other stacks, any script, any spend or
    none, and numbers minimal or not;
  - from a block that is opened there, up to the operation that closes it, no operation ends the skipping.
-/
import Mathlib.Data.List.Infix
import BitcoinScript.Proofs.Conditional.Selection
import BitcoinScript.Proofs.Session.Reach

namespace BitcoinScript

/-! ## The record of open blocks -/

/-- the records that come of opening, turning and closing blocks -/
inductive Branches.Built : Branches → Prop where
  | none : Built .none
  | push {branches : Branches} (taken : Bool) (h : Built branches) : Built (branches.push taken)
  | turn {branches turned : Branches} (h : Built branches) (ht : branches.turn? = some turned) : Built turned
  | pop {branches closed : Branches} (h : Built branches) (hp : branches.pop? = some closed) : Built closed

namespace Branches

variable {branches turned closed : Branches} {k : Nat}

theorem Built.lt_count (h : branches.Built) (hk : branches.firstSkipped = some k) : k < branches.count := by
  induction h generalizing k with
  | none => cases hk
  | @push branches taken h ih =>
    show k < branches.count + 1
    simp only [Branches.push] at hk
    split at hk
    · cases hk
      exact Nat.lt_succ_self _
    · exact Nat.lt_succ_of_lt (ih hk)
  | @turn branches turned h ht ih =>
    obtain ⟨_ | ⟨block, outer⟩, skipped⟩ := branches
    · cases ht
    · simp only [turn?] at ht
      split at ht
      · cases ht
      · cases ht
        show k < outer.length + 1
        cases skipped with
        | none =>
          cases hk
          exact Nat.lt_succ_self _
        | some j =>
          simp only at hk
          split at hk <;> cases hk
          exact ih rfl
  | @pop branches closed h hp ih =>
    obtain ⟨_ | ⟨block, outer⟩, skipped⟩ := branches
    · cases hp
    · cases hp
      simp only at hk
      split at hk
      · cases hk
      · rename_i hne
        have hlt : k < outer.length + 1 := ih hk
        have hk' : k ≠ outer.length := by
          rintro rfl
          exact hne hk
        show k < outer.length
        omega

theorem allTaken_eq_false (hk : branches.firstSkipped = some k) : branches.allTaken = false := by
  rw [allTaken, hk, Option.isNone_some]

theorem Built.exists_firstSkipped (h : branches.Built) (hx : branches.allTaken = false) :
    ∃ k, branches.firstSkipped = some k ∧ k < branches.count := by
  cases hk : branches.firstSkipped with
  | none =>
    rw [allTaken, hk] at hx
    cases hx
  | some k => exact ⟨k, rfl, h.lt_count hk⟩

/-- with an outer block that is not taken, turning the innermost does not end the skipping -/
theorem firstSkipped_turn? (hk : branches.firstSkipped = some k) (hlt : k + 1 < branches.count)
    (ht : branches.turn? = some turned) : turned.firstSkipped = some k := by
  obtain ⟨_ | ⟨⟨taken, _ | _⟩, outer⟩, skipped⟩ := branches <;> cases hk
  · cases ht
  · cases ht.symm.trans (turn?_skipped (Nat.lt_of_succ_lt_succ hlt))
    rfl
  · cases ht

theorem firstSkipped_pop? (hk : branches.firstSkipped = some k) (hlt : k + 1 < branches.count)
    (hp : branches.pop? = some closed) : closed.firstSkipped = some k := by
  obtain ⟨_ | ⟨block, outer⟩, skipped⟩ := branches <;> cases hk
  · cases hp
  · cases hp.symm.trans (pop?_skipped (Nat.lt_of_succ_lt_succ hlt))
    rfl

theorem firstSkipped_push (hk : branches.firstSkipped = some k) : (branches.push false).firstSkipped = some k := by
  simp only [push, allTaken, hk, Option.isNone_some, Bool.false_and, Bool.false_eq_true, if_false]

end Branches

/-! ## Operations that are not executed -/

/-- what an instruction on blocks comes to where it is not executed, on the record of open blocks alone -/
def FlowOp.pass (branches : Branches) : FlowOp → Except Failure (Branches × Action)
  | .openBlock _ => .ok (branches.push false, .openedInSkipped)
  | .turnBlock =>
    match branches.turn? with
    | some turned => .ok (turned, .turned turned.allTaken)
    | none => .error (if branches.count = 0 then .elseWithoutIf else .secondElse)
  | .closeBlock =>
    match branches.pop? with
    | some closed => .ok (closed, .closed closed.count)
    | none => .error .endifWithoutIf

/-- what an operation comes to where it is not executed, on the record of open blocks alone -/
def Operation.pass (branches : Branches) : Operation → Except Failure (Branches × Action)
  | .push data => .ok (branches, .skippedPush data.length)
  | .code op =>
    if op.isDisabled then .error (.disabledOpcode op)
    else
      match op.instruction? with
      | some (.flow flow) => (flow.pass branches).mapError (.within op.name)
      | _ => .ok (branches, .skipped op)

/-- a state whose record of open blocks goes on, or stays after a failure -/
def State.passed (s : State) : Except Failure (Branches × Action) → State × Except Failure Action
  | .ok (branches, action) => ({ s with branches }, .ok action)
  | .error failure => (s, .error failure)

section

variable {ctx : Context} {s : State} {branches after : Branches} {action : Action}

theorem FlowOp.apply_eq_pass (hx : s.executing = false) (flow : FlowOp) :
    flow.apply s = (flow.pass s.branches).map fun (branches, action) => ({ s with branches }, action) := by
  cases flow with
  | openBlock negated => exact if_neg (hx ▸ Bool.false_ne_true)
  | turnBlock =>
    simp only [apply, pass, State.turnBlock]
    cases s.branches.turn? <;> rfl
  | closeBlock =>
    simp only [apply, pass, State.exitBlock]
    cases s.branches.pop? <;> rfl

/-- an operation that is not executed comes to what the open blocks tell, and changes nothing but them -/
theorem execute_eq_pass (hx : s.executing = false) (hs : s.items ≤ stackLimit) (operation : Operation) :
    execute ctx operation s = s.passed (operation.pass s.branches) := by
  cases operation with
  | push data => exact (Operation.Skipped.push data hx).execute_eq ctx
  | code op =>
    cases hd : op.isDisabled with
    | true =>
      rw [execute_eq_apply]
      simp only [Operation.apply, Operation.pass, hd, if_true, State.passed]
    | false =>
      simp only [Operation.pass, hd, Bool.false_eq_true, if_false]
      split
      · rename_i flow hi
        rw [execute_code_eq hi (Bool.or_true _), Instruction.ready_flow fun hx' => absurd hx' (hx ▸ Bool.false_ne_true)]
        show op.conclude s (flow.apply s) = _
        rw [FlowOp.apply_eq_pass hx]
        cases flow.pass s.branches with
        | error failure => rfl
        | ok r => exact State.sized_of_le (s := { s with branches := r.1 }) hs r.2
      · rename_i hi
        refine (Operation.Skipped.code hx hd fun instruction ho => ?_).execute_eq ctx
        cases instruction with
        | flow flow => exact absurd ho (hi flow)
        | stack _ | toAlt | fromAlt | codeSeparator | signature _ => rfl

theorem Operation.pass_eq_ok {operation : Operation} (h : operation.pass branches = .ok (after, action)) :
    after = branches ∨ ∃ flow : FlowOp, flow.pass branches = .ok (after, action) := by
  cases operation with
  | push data =>
    cases h
    exact .inl rfl
  | code op =>
    simp only [pass] at h
    split at h
    · cases h
    · split at h
      · rename_i flow _
        cases hf : flow.pass branches with
        | error failure =>
          rw [hf] at h
          cases h
        | ok r =>
          rw [hf] at h
          cases h
          exact .inr ⟨flow, hf⟩
      · cases h
        exact .inl rfl

/-- with an outer block that is not taken, no operation ends the skipping -/
theorem Operation.firstSkipped_pass {operation : Operation} {k : Nat}
    (h : operation.pass branches = .ok (after, action)) (hk : branches.firstSkipped = some k)
    (hlt : k + 1 < branches.count) : after.firstSkipped = some k := by
  rcases pass_eq_ok h with rfl | ⟨flow, hf⟩
  · exact hk
  · cases flow with
    | openBlock negated =>
      cases hf
      exact Branches.firstSkipped_push hk
    | turnBlock =>
      simp only [FlowOp.pass] at hf
      split at hf <;> cases hf
      exact Branches.firstSkipped_turn? hk hlt ‹_›
    | closeBlock =>
      simp only [FlowOp.pass] at hf
      split at hf <;> cases hf
      exact Branches.firstSkipped_pop? hk hlt ‹_›

end

/-- the failures of operations that are not executed -/
inductive Operation.FailsSkipped (branches : Branches) : Operation → Failure → Prop where
  /-- a disabled opcode -/
  | disabled {op : Opcode} (hd : op.isDisabled) : FailsSkipped branches (.code op) (.disabledOpcode op)
  /-- a second turn of the innermost open block -/
  | turned (block : Block) (outer : List Block) (hb : branches.blocks = block :: outer) (ht : block.turned) :
      FailsSkipped branches (.code .turner) (.within Opcode.turner.name .secondElse)

theorem FlowOp.pass_eq_error_iff {branches : Branches} {block : Block} {outer : List Block}
    (hb : branches.blocks = block :: outer) (flow : FlowOp) (failure : Failure) :
    flow.pass branches = .error failure ↔ flow = .turnBlock ∧ block.turned ∧ failure = .secondElse := by
  obtain ⟨_, skipped⟩ := branches
  cases hb
  cases flow with
  | openBlock _ | closeBlock =>
    constructor
    · intro h
      cases h
    · rintro ⟨h, -⟩
      cases h
  | turnBlock =>
    cases ht : block.turned with
    | false =>
      simp only [pass, Branches.turn?, ht, Bool.false_eq_true, if_false]
      constructor
      · intro h
        cases h
      · rintro ⟨-, h, -⟩
        cases h
    | true =>
      simp only [pass, Branches.turn?, ht, if_true]
      constructor
      · rintro ⟨⟩
        exact ⟨trivial, trivial, rfl⟩
      · rintro ⟨-, -, rfl⟩
        rfl

/-- with a block open, an operation that is not executed fails in these two ways and in no other -/
theorem Operation.pass_eq_error_iff {branches : Branches} (hopen : 0 < branches.count) (operation : Operation)
    (failure : Failure) : operation.pass branches = .error failure ↔ operation.FailsSkipped branches failure := by
  obtain ⟨block, outer, hb⟩ := List.exists_cons_of_length_pos hopen
  constructor
  · intro h
    cases operation with
    | push data => cases h
    | code op =>
      simp only [pass] at h
      split at h
      · cases h
        exact .disabled ‹_›
      · split at h
        · rename_i flow hi
          cases hf : flow.pass branches with
          | ok r =>
            rw [hf] at h
            cases h
          | error cause =>
            rw [hf] at h
            cases h
            obtain ⟨rfl, ht, rfl⟩ := (FlowOp.pass_eq_error_iff hb flow cause).1 hf
            obtain rfl : op = .turner := Opcode.eq_of_instruction? hi (by decide)
            exact .turned block outer hb ht
        · cases h
  · intro h
    cases h with
    | disabled hd => simp only [pass, hd, if_true]
    | turned block outer hb ht =>
      have hf : FlowOp.turnBlock.pass branches = .error .secondElse :=
        (FlowOp.pass_eq_error_iff hb .turnBlock .secondElse).2 ⟨rfl, ht, rfl⟩
      show (FlowOp.turnBlock.pass branches).mapError (Failure.within Opcode.turner.name) = _
      rw [hf]
      rfl

theorem execute_eq_error_iff {s : State} (hb : s.branches.Built) (hx : s.executing = false) (hs : s.items ≤ stackLimit)
    (ctx : Context) (operation : Operation) (failure : Failure) :
    (execute ctx operation s).2 = .error failure ↔ operation.FailsSkipped s.branches failure := by
  obtain ⟨k, -, hlt⟩ := hb.exists_firstSkipped hx
  rw [execute_eq_pass hx hs, ← Operation.pass_eq_error_iff (Nat.lt_of_le_of_lt (Nat.zero_le k) hlt)]
  cases operation.pass s.branches with
  | ok r => exact ⟨nofun, nofun⟩
  | error cause => constructor <;> rintro ⟨⟩ <;> rfl

/-! ## Runs -/

section

variable {ctx : Context} {s : State} {operation : Operation} {operations : List Operation}

theorem FlowOp.built_of_apply {s' : State} {action : Action} {flow : FlowOp} (h : flow.apply s = .ok (s', action))
    (hb : s.branches.Built) : s'.branches.Built := by
  cases flow with
  | openBlock negated =>
    simp only [apply] at h
    split at h
    · obtain ⟨⟨item, popped⟩, hp, h⟩ := exists_of_bind_eq_ok h
      obtain ⟨rest, -, rfl⟩ := State.popMain_eq_ok hp
      cases h
      exact hb.push _
    · cases h
      exact hb.push _
  | turnBlock =>
    obtain ⟨after, ha, h⟩ := exists_of_map_eq_ok h
    obtain ⟨branches, ht, rfl⟩ := State.turnBlock_eq_ok ha
    cases h
    exact hb.turn ht
  | closeBlock =>
    obtain ⟨after, ha, h⟩ := exists_of_map_eq_ok h
    obtain ⟨branches, hp, rfl⟩ := State.exitBlock_eq_ok ha
    cases h
    exact hb.pop hp

theorem Branches.Built.after_execute (hb : s.branches.Built) (ctx : Context) (operation : Operation) :
    (execute ctx operation s).1.branches.Built := by
  rcases execute_cases ctx operation s with ⟨action, -, he⟩ | ⟨failure, -, he⟩ | ⟨s', action, hc, he⟩ <;> rw [he]
  · exact hb
  · exact hb
  · show s'.branches.Built
    cases hc with
    | push data hx => exact hb
    | code hd hi hx hr ha =>
      cases Instruction.apply_eq_ok_iff.1 ha with
      | flow hf => exact FlowOp.built_of_apply hf hb
      | stack _ | toAlt _ | fromAlt _ | codeSeparator | signature _ _ => exact hb

theorem Branches.Built.after_drive (hb : s.branches.Built) (ctx : Context) (operations : List Operation) :
    (drive ctx operations s).1.branches.Built := by
  induction operations generalizing s with
  | nil => exact hb
  | cons operation operations ih =>
    have hb' := hb.after_execute ctx operation
    rw [drive]
    cases he : execute ctx operation s with
    | mk s' result =>
      rw [he] at hb'
      cases result with
      | error failure => exact hb'
      | ok action => exact ih (s := s'.advance) hb'

/-- the record of open blocks is built in every state that a run comes to -/
theorem Context.built_of_reach {n : Nat} (h : ctx.reach n = some s) : s.branches.Built := by
  induction n generalizing s with
  | zero =>
    cases h
    exact .none
  | succ n ih =>
    obtain ⟨t, step, ht, hn⟩ := exists_of_reach_succ h
    rcases State.next_cases ctx t with
      ⟨operation, t', action, -, he, hn'⟩ | ⟨_, _, _, -, -, hn'⟩ | ⟨-, -, hn'⟩ | ⟨-, -, hn'⟩ <;>
      cases hn.symm.trans hn'
    have hb : (execute ctx operation t).1.branches.Built := (ih ht).after_execute ctx operation
    rw [he] at hb
    exact hb

/-! ## Segments -/

/-- what holds before each of the operations, as far as driving the machine over them comes -/
def HoldsBefore (ctx : Context) (P : State → Prop) (operations : List Operation) (s : State) : Prop :=
  ∀ before, before <+: operations → before ≠ operations → P (drive ctx before s).1

variable {P : State → Prop}

theorem HoldsBefore.of_prefix {before : List Operation} (h : HoldsBefore ctx P operations s)
    (hbefore : before <+: operations) : HoldsBefore ctx P before s := by
  intro earlier hearlier hne
  refine h earlier (hearlier.trans hbefore) ?_
  rintro rfl
  exact hne (hearlier.eq_of_length_le hbefore.length_le)

theorem HoldsBefore.head (h : HoldsBefore ctx P (operation :: operations) s) : P s :=
  h [] List.nil_prefix (List.cons_ne_nil _ _).symm

theorem HoldsBefore.tail {s' : State} {action : Action} (h : HoldsBefore ctx P (operation :: operations) s)
    (he : execute ctx operation s = (s', .ok action)) : HoldsBefore ctx P operations s'.advance := by
  intro before hbefore hne
  have hlater : P (drive ctx (operation :: before) s).1 := by
    refine h (operation :: before) (List.cons_prefix_cons.2 ⟨rfl, hbefore⟩) ?_
    rintro ⟨⟩
    exact hne rfl
  rw [drive, he] at hlater
  exact hlater

end

/-- two runs over operations that the first of them skips, from states with the same open blocks. The induction is on
the operations; what carries it is that the open blocks stay the same in both -/
theorem drive_skipped {ctx : Context} (ctx' : Context) {operations : List Operation} {s t : State}
    (hskip : HoldsBefore ctx (fun s => s.executing = false) operations s) (hb : t.branches = s.branches)
    (hs : s.items ≤ stackLimit) (ht : t.items ≤ stackLimit) :
    ∃ branches pc pc' result, drive ctx operations s = ({ s with branches, pc }, result) ∧
      drive ctx' operations t = ({ t with branches, pc := pc' }, result) := by
  induction operations generalizing s t with
  | nil => exact ⟨s.branches, s.pc, t.pc, .ok [], rfl, hb ▸ rfl⟩
  | cons operation operations ih =>
    have hx : s.executing = false := hskip.head
    have hx' : t.executing = false := (congrArg Branches.allTaken hb).trans hx
    have he : execute ctx operation s = s.passed (operation.pass s.branches) := execute_eq_pass hx hs operation
    have he' : execute ctx' operation t = t.passed (operation.pass s.branches) := hb ▸ execute_eq_pass hx' ht operation
    cases hpass : operation.pass s.branches with
    | error failure =>
      rw [hpass] at he he'
      refine ⟨s.branches, s.pc, t.pc, .error failure, ?_, ?_⟩
      · rw [drive, he]
        rfl
      · rw [drive, he', ← hb]
        rfl
    | ok r =>
      rw [hpass] at he he'
      let s₁ : State := { s with branches := r.1 }
      let t₁ : State := { t with branches := r.1 }
      obtain ⟨branches, pc, pc', result, hd, hd'⟩ :=
        ih (s := s₁.advance) (t := t₁.advance) (hskip.tail he) rfl hs ht
      refine ⟨branches, pc, pc', result.map (r.2 :: ·), ?_, ?_⟩
      · rw [drive, he]
        show ((drive ctx operations s₁.advance).1, (drive ctx operations s₁.advance).2.map (r.2 :: ·)) = _
        rw [hd]
        rfl
      · rw [drive, he']
        show ((drive ctx' operations t₁.advance).1, (drive ctx' operations t₁.advance).2.map (r.2 :: ·)) = _
        rw [hd']
        rfl

/-- as long as more than `n` blocks are open, the first `n` of them with one that is not taken, that stays the outermost
one. The induction is on the operations -/
theorem drive_firstSkipped {ctx : Context} {operations : List Operation} {s : State} {k n : Nat}
    (hopen : HoldsBefore ctx (fun s => n < s.branches.count) operations s) (hk : s.branches.firstSkipped = some k)
    (hkn : k < n) (hs : s.items ≤ stackLimit) : (drive ctx operations s).1.branches.firstSkipped = some k := by
  induction operations generalizing s with
  | nil => exact hk
  | cons operation operations ih =>
    have hx : s.executing = false := Branches.allTaken_eq_false hk
    have he : execute ctx operation s = s.passed (operation.pass s.branches) := execute_eq_pass hx hs operation
    have hcount : k + 1 < s.branches.count := Nat.lt_of_le_of_lt hkn hopen.head
    cases hpass : operation.pass s.branches with
    | error failure =>
      rw [hpass] at he
      rw [drive, he]
      exact hk
    | ok r =>
      rw [hpass] at he
      let s₁ : State := { s with branches := r.1 }
      have hlater : (drive ctx operations s₁.advance).1.branches.firstSkipped = some k :=
        ih (hopen.tail he) (Operation.firstSkipped_pass hpass hk hcount) hs
      rw [drive, he]
      exact hlater

/-- the opcodes that fail even where they are skipped, by their names, in the order of their bytes -/
theorem Opcode.names_disabled :
    ((List.range 256).filterMap fun n =>
      let op : Opcode := ⟨UInt8.ofNat n⟩
      if op.isDisabled then some op.name else none) =
      ["OP_RESERVED", "OP_VER", "OP_VERIF", "OP_VERNOTIF", "OP_CAT", "OP_SUBSTR", "OP_LEFT", "OP_RIGHT", "OP_INVERT",
        "OP_AND", "OP_OR", "OP_XOR", "OP_RESERVED1", "OP_RESERVED2", "OP_2MUL", "OP_2DIV", "OP_MUL", "OP_DIV", "OP_MOD",
        "OP_LSHIFT", "OP_RSHIFT"] := by
  decide +kernel

/-- **Skipped code does nothing.** Along operations that are all skipped, nothing but the open blocks changes, and what
happens depends on nothing but these; an operation fails only for being disabled or for turning a block again. And a
block that is opened there does not end the skipping. -/
theorem skipped_code_inert (ctx : Context) (s : State) (hb : s.branches.Built) (hx : s.executing = false)
    (hs : s.items ≤ stackLimit) :
    (∀ operations, HoldsBefore ctx (fun t => t.executing = false) operations s →
      (∀ before, before <+: operations →
        let t := (drive ctx before s).1
        t.main = s.main ∧ t.alt = s.alt ∧ t.codeStart = s.codeStart) ∧
      (∀ before operation t actions, before ++ [operation] <+: operations → drive ctx before s = (t, .ok actions) →
        ∀ failure, (execute ctx operation t).2 = .error failure ↔ operation.FailsSkipped t.branches failure) ∧
      ∀ (ctx' : Context) (s' : State), s'.branches = s.branches → s'.items ≤ stackLimit →
        ∀ before, before <+: operations →
          let one := drive ctx before s
          let other := drive ctx' before s'
          other.1.branches = one.1.branches ∧ other.2 = one.2) ∧
    ∀ negated inside,
      let opened := (execute ctx (.code (.opener negated)) s).1.advance
      HoldsBefore ctx (fun t => s.branches.count < t.branches.count) inside opened →
        (drive ctx inside opened).1.executing = false := by
  refine ⟨fun operations hskip => ⟨?_, ?_, ?_⟩, ?_⟩
  · intro before hbefore
    obtain ⟨branches, pc, -, result, hd, -⟩ := drive_skipped ctx (hskip.of_prefix hbefore) rfl hs hs
    rw [hd]
    exact ⟨rfl, rfl, rfl⟩
  · intro before operation t actions hbefore hd failure
    have hprefix : before <+: operations := (List.prefix_append before [operation]).trans hbefore
    have hne : before ≠ operations := by
      rintro rfl
      have hle := hbefore.length_le
      rw [List.length_append, List.length_singleton] at hle
      omega
    obtain ⟨branches, pc, -, result, hd', -⟩ := drive_skipped ctx (hskip.of_prefix hprefix) rfl hs hs
    have hxt := hskip before hprefix hne
    have hbt := hb.after_drive ctx before
    rw [hd] at hxt hbt
    cases hd.symm.trans hd'
    exact execute_eq_error_iff hbt hxt hs ctx operation failure
  · intro ctx' s' hbranches hs' before hbefore
    obtain ⟨branches, pc, pc', result, hd, hd'⟩ := drive_skipped ctx' (hskip.of_prefix hbefore) hbranches hs hs'
    rw [hd, hd']
    exact ⟨rfl, rfl⟩
  · intro negated inside opened hopen
    obtain ⟨k, hk, hlt⟩ := hb.exists_firstSkipped hx
    obtain ⟨action, he⟩ : ∃ action, execute ctx (.code (.opener negated)) s =
        ({ s with branches := s.branches.push false }, .ok action) := execute_opener_skipped hx hs
    have hopened : opened = State.advance { s with branches := s.branches.push false } :=
      congrArg (fun result => result.1.advance) he
    rw [hopened] at hopen ⊢
    exact Branches.allTaken_eq_false (drive_firstSkipped hopen (Branches.firstSkipped_push hk) hlt hs)

/-- a block of two parts inside a block that is not taken, with a check of signatures in it -/
theorem skipped_code_inert_nested :
    let ctx : Context := ⟨⟨[]⟩, none, false⟩
    let s : State := ⟨[[1]], [], Branches.none.push false, 2, 0⟩
    let inside : List Operation := [.code ⟨0xac⟩, .code .turner, .code .closer]
    let operations : List Operation := .code (.opener false) :: inside
    (drive ctx operations s).1.main = s.main ∧
      (drive ⟨⟨[]⟩, none, true⟩ operations ⟨[], [[2]], s.branches, 5, 0⟩).2 = (drive ctx operations s).2 ∧
      (drive ctx inside (execute ctx (.code (.opener false)) s).1.advance).1.executing = false := by
  intro ctx s inside operations
  have hskips : ∀ before ∈ operations.inits, before ≠ operations → (drive ctx before s).1.executing = false := by
    decide +kernel
  have hskip : HoldsBefore ctx (fun t => t.executing = false) operations s :=
    fun before hbefore => hskips before ((List.mem_inits _ _).2 hbefore)
  have hopens : ∀ before ∈ inside.inits, before ≠ inside →
      s.branches.count < (drive ctx before (execute ctx (.code (.opener false)) s).1.advance).1.branches.count := by
    decide +kernel
  obtain ⟨hsegment, hblock⟩ := skipped_code_inert ctx s (.push false .none) rfl (by decide)
  obtain ⟨hstacks, -, hother⟩ := hsegment operations hskip
  refine ⟨(hstacks operations (List.prefix_refl _)).1, ?_, ?_⟩
  · exact (hother ⟨⟨[]⟩, none, true⟩ ⟨[], [[2]], s.branches, 5, 0⟩ rfl (by decide) operations (List.prefix_refl _)).2
  · exact hblock false inside fun before hbefore => hopens before ((List.mem_inits _ _).2 hbefore)

end BitcoinScript
