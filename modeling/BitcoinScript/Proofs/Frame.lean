/-
What lies below. An instruction looks at the stacks from the top, so items put below everything else change nothing of
what it does, and are there unchanged afterwards. The one exception is the instruction that pushes the number of items.

Results:
- `StackOp.apply_append`, `SignatureOp.apply_append`: an instruction that succeeds on a stack does the same above other
  items.
- `execute_onto`: so does an operation, on both stacks, within the limit of their sizes.
- `drive_onto`: so do operations one after another.
-/
import BitcoinScript.Proofs.Operation

namespace BitcoinScript

/-! ## One stack -/

theorem Shuffle.apply?_append {kind : Shuffle} {stack stack' : Stack} {item : Bytes}
    (h : kind.apply? stack = some (stack', item)) (rest : Stack) :
    kind.apply? (stack ++ rest) = some (stack' ++ rest, item) := by
  unfold Shuffle.apply? at h
  split at h <;> cases h <;> rfl

theorem StackOp.fetchItem_append {keep : Bool} {index : Int} {stack stack' : Stack} {action : Action}
    (h : fetchItem keep index stack = .ok (stack', action)) (rest : Stack) :
    fetchItem keep index (stack ++ rest) = .ok (stack' ++ rest, action) := by
  unfold fetchItem at h ⊢
  split at h
  · cases h
  · rename_i item hitem
    have hpos : ¬ index < 0 := by
      intro hneg
      rw [if_pos hneg] at hitem
      cases hitem
    rw [if_neg hpos] at hitem ⊢
    obtain ⟨hlt, -⟩ := List.getElem?_eq_some_iff.1 hitem
    cases h
    rw [List.getElem?_append_left hlt, hitem, List.eraseIdx_append_of_lt_length hlt]
    cases keep <;> rfl

/-- an instruction that succeeds on a stack does the same above other items, unless it counts them -/
theorem StackOp.apply_append {strict : Bool} {op : StackOp} {main main' : Stack} {action : Action}
    (hop : op ≠ .pushDepth) (h : op.apply strict main = .ok (main', action)) (rest : Stack) :
    op.apply strict (main ++ rest) = .ok (main' ++ rest, action) := by
  -- a success says that the operands are there, and then the rest is not looked at
  cases op with
  | pushDepth => exact absurd rfl hop
  | unspendable => cases h
  | nop | ignored _ | pushNumber _ =>
    cases h
    rfl
  | shuffle kind =>
    simp only [apply] at h ⊢
    split at h <;> cases h
    rename_i hk
    simp only [kind.apply?_append hk rest]
  | pushSize | hash _ =>
    rcases main with _ | ⟨item, below⟩ <;> cases h
    rfl
  | fetch keep =>
    rcases main with _ | ⟨item, below⟩
    · cases h
    · obtain ⟨index, hindex, h⟩ := exists_of_bind_eq_ok h
      simp only [List.cons_append, apply, hindex]
      exact fetchItem_append h rest
  | verify | dupIfTrue =>
    rcases main with _ | ⟨item, below⟩
    · cases h
    · simp only [List.cons_append, apply] at h ⊢
      cases ht : Number.isTrue item <;> rw [ht] at h <;> cases h <;> rfl
  | equal verify =>
    rcases main with _ | ⟨b, _ | ⟨a, below⟩⟩
    · cases verify <;> cases h
    · cases verify <;> cases h
    · cases verify with
      | false =>
        cases h
        rfl
      | true =>
        simp only [List.cons_append, apply] at h ⊢
        cases he : a == b <;> rw [he] at h <;> cases h <;> rfl
  | unary op =>
    rcases main with _ | ⟨item, below⟩
    · cases h
    · obtain ⟨x, hx, h⟩ := exists_of_bind_eq_ok h
      cases h
      simp only [List.cons_append, apply, hx]
      rfl
  | binary op =>
    rcases main with _ | ⟨b, _ | ⟨a, below⟩⟩
    · cases h
    · cases h
    · obtain ⟨x, hx, h⟩ := exists_of_bind_eq_ok h
      obtain ⟨y, hy, h⟩ := exists_of_bind_eq_ok h
      cases h
      simp only [List.cons_append, apply, hx, hy]
      rfl
  | equalNumbersVerify =>
    rcases main with _ | ⟨b, _ | ⟨a, below⟩⟩
    · cases h
    · cases h
    · obtain ⟨x, hx, h⟩ := exists_of_bind_eq_ok h
      obtain ⟨y, hy, h⟩ := exists_of_bind_eq_ok h
      split at h
      · rename_i he
        cases h
        simp only [List.cons_append, apply, hx, hy]
        exact if_pos he
      · cases h
  | within =>
    rcases main with _ | ⟨c, _ | ⟨b, _ | ⟨a, below⟩⟩⟩
    · cases h
    · cases h
    · cases h
    · obtain ⟨x, hx, h⟩ := exists_of_bind_eq_ok h
      obtain ⟨low, hlow, h⟩ := exists_of_bind_eq_ok h
      obtain ⟨high, hhigh, h⟩ := exists_of_bind_eq_ok h
      cases h
      simp only [List.cons_append, apply, hx, hlow, hhigh]
      rfl

theorem ManyOperands.take_append {strict : Bool} {main : Stack} {o : ManyOperands}
    (h : ManyOperands.take strict main = .ok o) (rest : Stack) :
    ManyOperands.take strict (main ++ rest) = .ok { o with rest := o.rest ++ rest } := by
  obtain ⟨keyCount, signatureCount, unused, rfl, hkeys⟩ := take_eq_ok_iff.1 h
  refine take_eq_ok_iff.2 ⟨keyCount, signatureCount, unused, ?_, hkeys⟩
  simp only [List.cons_append, List.append_assoc]

theorem SignatureOp.concludeMany_append {verify : Bool} {o : ManyOperands} {left : List Bytes} {main' : Stack}
    {action : Action} (h : concludeMany verify o left = .ok (main', action)) (rest : Stack) :
    concludeMany verify { o with rest := o.rest ++ rest } left = .ok (main' ++ rest, action) := by
  simp only [concludeMany] at h ⊢
  cases verify with
  | false =>
    cases h
    rfl
  | true =>
    cases hl : left.isEmpty <;> rw [hl] at h <;> cases h
    rfl

theorem SignatureOp.apply_append {strict : Bool} {check : List Bytes → Verdict} {op : SignatureOp}
    {main main' : Stack} {action : Action} (h : op.apply strict check main = .ok (main', action)) (rest : Stack) :
    op.apply strict check (main ++ rest) = .ok (main' ++ rest, action) := by
  cases op with
  | one verify =>
    rcases main with _ | ⟨key, _ | ⟨signature, below⟩⟩
    · cases h
    · cases h
    · obtain ⟨valid, hv, h⟩ := exists_of_bind_eq_ok h
      simp only [List.cons_append, apply, applyOne, hv]
      cases verify <;> cases valid <;> cases h <;> rfl
  | many verify =>
    obtain ⟨o, ho, h⟩ := exists_of_bind_eq_ok h
    obtain ⟨left, hl, h⟩ := exists_of_bind_eq_ok h
    simp only [apply, applyMany, ManyOperands.take_append ho rest]
    show unmatched (check o.signatures) o.signatures o.keys >>= _ = _
    rw [hl]
    exact concludeMany_append h rest

/-! ## Both stacks -/

/-- the state with items below each of the stacks -/
def State.onto (s : State) (main alt : Stack) : State :=
  { s with main := s.main ++ main, alt := s.alt ++ alt }

section

variable {ctx : Context} {s s' : State} {action : Action} {main alt : Stack}

@[simp] theorem State.executing_onto : (s.onto main alt).executing = s.executing :=
  rfl

theorem State.items_onto : (s.onto main alt).items = s.items + main.length + alt.length := by
  simp only [items, onto, List.length_append]
  omega

theorem State.advance_onto : (s.onto main alt).advance = s.advance.onto main alt :=
  rfl

theorem FlowOp.apply_onto {op : FlowOp} (h : op.apply s = .ok (s', action)) :
    op.apply (s.onto main alt) = .ok (s'.onto main alt, action) := by
  cases op with
  | openBlock negated =>
    simp only [apply] at h ⊢
    rw [State.executing_onto]
    cases hx : s.executing with
    | true =>
      rw [hx] at h
      obtain ⟨⟨item, popped⟩, hp, h⟩ := exists_of_bind_eq_ok h
      obtain ⟨below, hm, rfl⟩ := State.popMain_eq_ok hp
      cases h
      simp only [State.popMain, State.onto, hm]
      rfl
    | false =>
      rw [hx] at h
      cases h
      rfl
  | turnBlock =>
    obtain ⟨turned, ht, h⟩ := exists_of_map_eq_ok h
    obtain ⟨branches, hb, rfl⟩ := State.turnBlock_eq_ok ht
    cases h
    simp only [apply, State.turnBlock, State.onto, hb]
    rfl
  | closeBlock =>
    obtain ⟨closed, hc, h⟩ := exists_of_map_eq_ok h
    obtain ⟨branches, hb, rfl⟩ := State.exitBlock_eq_ok hc
    cases h
    simp only [apply, State.exitBlock, State.onto, hb]
    rfl

theorem Instruction.Makes.onto {instruction : Instruction} (hi : instruction ≠ .stack .pushDepth)
    (h : instruction.Makes ctx s s' action) (main alt : Stack) :
    instruction.Makes ctx (s.onto main alt) (s'.onto main alt) action := by
  cases h with
  | @stack op main' _ h => exact .stack (StackOp.apply_append (fun hop => hi (congrArg _ hop)) h main)
  | flow h => exact .flow (FlowOp.apply_onto h)
  | toAlt h => exact .toAlt (congrArg (· ++ main) h)
  | fromAlt h => exact .fromAlt (congrArg (· ++ alt) h)
  | codeSeparator => exact .codeSeparator
  | signature hs h => exact .signature hs (SignatureOp.apply_append h main)

theorem Instruction.ready_onto {instruction : Instruction} (h : instruction.ready ctx s = .ok ()) (main alt : Stack) :
    instruction.ready ctx (s.onto main alt) = .ok () := by
  cases hx : s.executing with
  | false =>
    have hx' : (s.onto main alt).executing = false := hx
    rw [ready, hx']
    rfl
  | true =>
    have hx' : (s.onto main alt).executing = true := hx
    have hd : instruction.depth ≤ (s.onto main alt).main.length := by
      refine Nat.le_trans (depth_le_of_ready hx h) ?_
      simp only [State.onto, List.length_append]
      omega
    rw [ready, hx] at h
    rw [ready, hx', Stack.require_eq_ok hd]
    simp only [Bool.not_true, Bool.false_eq_true, if_false] at h ⊢
    split at h
    · cases h
    · rw [if_neg ‹_›]

/-- the opcode that pushes the number of items on the main stack -/
def Opcode.pushDepth : Opcode := ⟨0x74⟩

theorem Operation.Skipped.onto {operation : Operation} (h : operation.Skipped s action) (main alt : Stack) :
    operation.Skipped (s.onto main alt) action := by
  cases h with
  | push data hx => exact .push data hx
  | code hx hd hi => exact .code hx hd hi

theorem Operation.Carried.onto {operation : Operation} (hdepth : operation ≠ .code .pushDepth)
    (h : operation.Carried ctx s s' action) (main alt : Stack) :
    operation.Carried ctx (s.onto main alt) (s'.onto main alt) action := by
  cases h with
  | push data hx => exact .push data hx
  | @code op instruction _ _ hd hi hx hr ha =>
    have hcount : instruction ≠ .stack .pushDepth := by
      rintro rfl
      have hop : op = .pushDepth := Opcode.eq_of_instruction? hi (by decide)
      exact hdepth (congrArg Operation.code hop)
    exact .code hd hi hx (Instruction.ready_onto hr main alt)
      (Instruction.apply_eq_ok_iff.2 ((Instruction.apply_eq_ok_iff.1 ha).onto hcount main alt))

/-- an operation that succeeds does the same above other items, if there is room for these afterwards -/
theorem execute_onto {operation : Operation} (hdepth : operation ≠ .code .pushDepth)
    (h : execute ctx operation s = (s', .ok action)) (main alt : Stack)
    (hsize : s'.items + main.length + alt.length ≤ stackLimit) :
    execute ctx operation (s.onto main alt) = (s'.onto main alt, .ok action) := by
  rcases execute_eq_ok h with ⟨rfl, hk⟩ | ⟨hc, -⟩
  · exact (hk.onto main alt).execute_eq ctx
  · have hle : (s'.onto main alt).items ≤ stackLimit := by
      rw [State.items_onto]
      exact hsize
    rw [(hc.onto hdepth main alt).execute_eq, State.sized_of_le hle]

end

/-! ## One operation after another -/

/-- **Only what lies on top matters.** Operations that do not count the items on the stack, driven from a state to a
success, do the same from the state with any items below both of its stacks: the items stay below, the open blocks, the
index of the next operation and the start of the script code come out the same, and so does each action. The two stacks
must have room for the items after each operation. -/
theorem drive_onto (ctx : Context) (operations : List Operation) (s s' : State) (actions : List Action)
    (main alt : Stack) (hdepth : .code .pushDepth ∉ operations) (h : drive ctx operations s = (s', .ok actions))
    (hsize : ∀ before, before <+: operations → before ≠ [] →
      (drive ctx before s).1.items + main.length + alt.length ≤ stackLimit) :
    drive ctx operations (s.onto main alt) = (s'.onto main alt, .ok actions) := by
  induction operations generalizing s actions with
  | nil =>
    cases h
    rfl
  | cons operation operations ih =>
    obtain ⟨s₁, action, later, he, hd, rfl⟩ := drive_cons_eq_ok_iff.1 h
    have hfirst : s₁.items + main.length + alt.length ≤ stackLimit := by
      have hone : drive ctx [operation] s = (s₁.advance, .ok [action]) := drive_cons_eq_ok_iff.2 ⟨_, _, _, he, rfl, rfl⟩
      have hle := hsize [operation] ⟨operations, rfl⟩ (List.cons_ne_nil _ _)
      rw [hone] at hle
      exact hle
    -- what is driven after the first operation is what is driven from the state that it leaves
    have hlater : ∀ before, before <+: operations → before ≠ [] →
        (drive ctx before s₁.advance).1.items + main.length + alt.length ≤ stackLimit := by
      intro before hb _
      have hle := hsize (operation :: before) (List.cons_prefix_cons.2 ⟨rfl, hb⟩) (List.cons_ne_nil _ _)
      rw [drive, he] at hle
      exact hle
    have hrest : drive ctx operations (s₁.advance.onto main alt) = (s'.onto main alt, .ok later) :=
      ih s₁.advance later (fun hm => hdepth (List.mem_cons_of_mem _ hm)) hd hlater
    have hne : operation ≠ .code .pushDepth := by
      rintro rfl
      exact hdepth List.mem_cons_self
    refine drive_cons_eq_ok_iff.2 ⟨_, _, _, execute_onto hne he main alt hfirst, ?_, rfl⟩
    rw [State.advance_onto]
    exact hrest

/-- five is pushed, and the three below it is moved to the second stack, above two items and one -/
theorem drive_onto_move :
    let operations : List Operation := [.push [5], .code ⟨0x7c⟩, .code ⟨0x6b⟩]
    let s : State := ⟨[[3]], [], .none, 0, 0⟩
    drive ⟨⟨[]⟩, none, false⟩ operations (s.onto [[1], [2]] [[9]]) =
      ((⟨[[5]], [[3]], .none, 3, 0⟩ : State).onto [[1], [2]] [[9]],
        .ok [.pushed [5], .shuffled .swap [], .movedToAlt [3]]) := by
  intro operations s
  have hsize : ∀ n ≤ 3, (drive ⟨⟨[]⟩, none, false⟩ (operations.take n) s).1.items + 2 + 1 ≤ stackLimit := by
    decide +kernel
  refine drive_onto ⟨⟨[]⟩, none, false⟩ operations s _ _ [[1], [2]] [[9]] (by decide) rfl ?_
  intro before hb _
  rw [List.prefix_iff_eq_take.1 hb]
  exact hsize _ hb.length_le

end BitcoinScript
