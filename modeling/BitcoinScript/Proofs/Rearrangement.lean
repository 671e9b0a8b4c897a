/-
The opcodes that rearrange the items on top of the stack, and the two that take the place of an item from the stack
itself. The first address items from the top, or by their height above the bottom once an item is taken off; the others
address an item by how many lie above it. Each of the first is some steps of the others.

Results:
- `Shuffle.run_moves`: on the stack, a rearrangement makes the same as its moves.
- `drive_expansion`: the operations that stand for moves make them, if there is room for the indices.
- `rearrangements_are_moves`: each opcode that rearranges the stack stands for some moves, such as two of the item below
  five others for `OP_2ROT`, and each move is written as a push of its index, in any form that is read as that number,
  and the opcode that copies or moves.
  - If the stack has the items that a rearrangement needs, and there is room for the indices, its opcode and the
    operations for its moves both succeed, and leave the same stacks.
  - With an index in range on top of other items, the opcode that moves takes the index off and brings the item that so
    many others lie above to the top, and all others keep their order. The one that copies puts a copy of it in place of
    the index and changes nothing else.
-/
import BitcoinScript.Proofs.Number.Codec
import BitcoinScript.Proofs.Operation

namespace BitcoinScript

/-! ## The opcodes -/

/-- the opcode that copies an item to the top of the stack, or moves it there -/
def Opcode.fetch (keep : Bool) : Opcode :=
  ⟨if keep then 0x79 else 0x7a⟩

@[simp] theorem Opcode.instruction?_fetch (keep : Bool) : (fetch keep).instruction? = some (.stack (.fetch keep)) := by
  cases keep <;> rfl

/-- the opcode of a rearrangement -/
def Shuffle.opcode : Shuffle → Opcode
  | .drop2 => ⟨0x6d⟩
  | .dup2 => ⟨0x6e⟩
  | .dup3 => ⟨0x6f⟩
  | .over2 => ⟨0x70⟩
  | .rot2 => ⟨0x71⟩
  | .swap2 => ⟨0x72⟩
  | .drop => ⟨0x75⟩
  | .dup => ⟨0x76⟩
  | .nip => ⟨0x77⟩
  | .over => ⟨0x78⟩
  | .rot => ⟨0x7b⟩
  | .swap => ⟨0x7c⟩
  | .tuck => ⟨0x7d⟩

@[simp] theorem Shuffle.instruction?_opcode (kind : Shuffle) :
    kind.opcode.instruction? = some (.stack (.shuffle kind)) := by
  cases kind <;> rfl

/-! ## Moves -/

/-- what is done to a single item: it is copied or moved to the top from below `index` others, or the top one dropped -/
inductive Move where
  | fetch (keep : Bool) (index : Nat)
  | drop

/-- copies an item -/
abbrev Move.pick (index : Nat) : Move :=
  .fetch true index

/-- moves an item -/
abbrev Move.roll (index : Nat) : Move :=
  .fetch false index

namespace Move

/-- the stack after a move, if its item is there -/
def step? : Move → Stack → Option Stack
  | .fetch keep index, main => main[index]?.map fun item => item :: if keep then main else main.eraseIdx index
  | .drop, [] => none
  | .drop, _ :: main => some main

/-- the stack after moves, if their items are there -/
def run? (moves : List Move) (main : Stack) : Option Stack :=
  moves.foldlM (fun main move => move.step? main) main

/-- how many items more than before there are at most, while moves are made whose indices come from the stack -/
def peak : List Move → Nat
  | [] => 0
  | .fetch true _ :: moves => 1 + peak moves
  | .fetch false _ :: moves => max 1 (peak moves)
  | .drop :: moves => peak moves - 1

theorem room_of_cons {move : Move} {moves : List Move} {main main' : Stack} {items : Nat}
    (h : move.step? main = some main') (hroom : main.length + items + peak (move :: moves) ≤ stackLimit) :
    main.length + items + peak [move] ≤ stackLimit ∧ main'.length + items + peak moves ≤ stackLimit := by
  cases move with
  | fetch keep index =>
    obtain ⟨item, hitem, rfl⟩ := Option.map_eq_some_iff.1 h
    have hlt : index < main.length := (List.getElem?_eq_some_iff.1 hitem).1
    cases keep with
    | true =>
      simp only [peak, if_true, List.length_cons] at hroom ⊢
      omega
    | false =>
      simp only [peak, Bool.false_eq_true, if_false, List.length_cons, List.length_eraseIdx_of_lt hlt] at hroom ⊢
      omega
  | drop =>
    match main, h with
    | item :: rest, rfl =>
      simp only [peak, List.length_cons] at hroom ⊢
      omega

theorem room_of_run {moves : List Move} {main main' : Stack} {items : Nat} (h : run? moves main = some main')
    (hroom : main.length + items + peak moves ≤ stackLimit) : main'.length + items ≤ stackLimit := by
  induction moves generalizing main with
  | nil =>
    cases h
    exact hroom
  | cons move moves ih =>
    obtain ⟨main₁, hfirst, hlater⟩ := Option.bind_eq_some_iff.1 h
    exact ih hlater (room_of_cons hfirst hroom).2

end Move

/-- a rearrangement as moves -/
def Shuffle.moves : Shuffle → List Move
  | .drop => [.drop]
  | .drop2 => [.drop, .drop]
  | .dup => [.pick 0]
  | .over => [.pick 1]
  | .dup2 => [.pick 1, .pick 1]
  | .dup3 => [.pick 2, .pick 2, .pick 2]
  | .over2 => [.pick 3, .pick 3]
  | .swap => [.roll 1]
  | .rot => [.roll 2]
  | .swap2 => [.roll 3, .roll 3]
  | .rot2 => [.roll 5, .roll 5]
  | .tuck => [.roll 1, .pick 1]
  | .nip => [.roll 1, .drop]

/-- a rearrangement makes the same of a stack as its moves -/
theorem Shuffle.run_moves {kind : Shuffle} {main main' : Stack} {item : Bytes}
    (h : kind.apply? main = some (main', item)) : Move.run? kind.moves main = some main' := by
  unfold Shuffle.apply? at h
  split at h <;> cases h <;> rfl

/-! ## Operations for moves -/

/-- the operation pushes an item that is read as the number `n`: any form of it that is accepted, or an opcode for it -/
inductive Operation.Pushes (strict : Bool) (n : Int) : Operation → Prop where
  | data {item : Bytes} (hread : Number.read item operandLimit strict = .ok n) : Pushes strict n (.push item)
  | code {op : Opcode} (hi : op.instruction? = some (.stack (.pushNumber n))) : Pushes strict n (.code op)

/-- the operations that stand for a move: an index is pushed before the opcode that takes it -/
inductive Move.Written (strict : Bool) : Move → List Operation → Prop where
  | fetch {keep : Bool} {index : Nat} {push : Operation} (hpush : push.Pushes strict index) :
      Written strict (.fetch keep index) [push, .code (.fetch keep)]
  | drop : Written strict .drop [.code Shuffle.drop.opcode]

/-- the operations that stand for moves -/
inductive Move.Expansion (strict : Bool) : List Move → List Operation → Prop where
  | nil : Expansion strict [] []
  | cons {move : Move} {moves : List Move} {operations more : List Operation} (hmove : move.Written strict operations)
      (hmoves : Expansion strict moves more) : Expansion strict (move :: moves) (operations ++ more)

theorem Opcode.natAbs_lt_of_pushNumber {op : Opcode} {n : Int} (h : op.instruction? = some (.stack (.pushNumber n))) :
    n.natAbs < 2 ^ 31 := by
  let small : Instruction → Bool
    | .stack (.pushNumber n) => n.natAbs < 2 ^ 31
    | _ => true
  have htable : ∀ entry ∈ instructionTable, small entry.2 := by decide
  exact of_decide_eq_true (htable _ (mem_of_instruction? h))

section Execution

variable {ctx : Context} {s : State}

theorem Operation.Pushes.execute {n : Int} {operation : Operation} (h : operation.Pushes ctx.strict n)
    (hx : s.executing) (hsize : s.items < stackLimit) :
    ∃ item action, Number.read item operandLimit ctx.strict = .ok n ∧
      execute ctx operation s = ({ s with main := item :: s.main }, .ok action) := by
  have hroom : ∀ item, { s with main := item :: s.main : State }.items ≤ stackLimit := by
    intro item
    simp only [State.items, List.length_cons] at hsize ⊢
    omega
  cases h with
  | @data item hread =>
    refine ⟨item, .pushed item, hread, ?_⟩
    rw [(Operation.Carried.push item hx).execute_eq]
    exact State.sized_of_le (hroom item) _
  | code hi =>
    refine ⟨Number.encode n, .pushedNumber n, Number.read_encode (Opcode.natAbs_lt_of_pushNumber hi) _, ?_⟩
    exact execute_stack_eq_ok hi hx (Nat.zero_le _) rfl (hroom _)

/-- the item that is asked for is copied or moved to the top, and the index is gone -/
theorem execute_fetch (ctx : Context) (keep : Bool) {n : Nat} {index : Bytes} {rest main : Stack} (hx : s.executing)
    (hmain : s.main = index :: rest) (hread : Number.read index operandLimit ctx.strict = .ok (n : Int))
    (h : Move.step? (.fetch keep n) rest = some main) :
    ∃ action, execute ctx (.code (.fetch keep)) s = { s with main : State }.sized action := by
  obtain ⟨item, hitem, rfl⟩ := Option.map_eq_some_iff.1 h
  have hdepth : (StackOp.fetch keep).depth ≤ s.main.length := by
    rw [hmain]
    exact Nat.le_add_left 1 _
  have happly : StackOp.apply ctx.strict (.fetch keep) s.main =
      .ok (item :: if keep then rest else rest.eraseIdx n, .fetched keep n item) := by
    have hn : ¬ (n : Int) < 0 := by omega
    simp only [hmain, StackOp.apply, StackOp.operand, hread, StackOp.fetchItem, bind, Except.bind, if_neg hn,
      Int.toNat_natCast, hitem]
  refine ⟨.fetched keep n item, ?_⟩
  rw [execute_stack_eq (Opcode.instruction?_fetch keep) hx hdepth, happly]
  rfl

theorem execute_shuffle (ctx : Context) {kind : Shuffle} {main : Stack} {item : Bytes} (hx : s.executing)
    (hdepth : kind.depth ≤ s.main.length) (h : kind.apply? s.main = some (main, item)) :
    execute ctx (.code kind.opcode) s = { s with main : State }.sized (.shuffled kind item) := by
  have happly : StackOp.apply ctx.strict (.shuffle kind) s.main = .ok (main, .shuffled kind item) := by
    rw [StackOp.apply, h]
  rw [execute_stack_eq kind.instruction?_opcode hx hdepth, happly]
  rfl

/-- the operations that stand for a move make it -/
theorem Move.Written.drive {move : Move} {operations : List Operation} {main : Stack}
    (h : move.Written ctx.strict operations) (hx : s.executing) (hmove : move.step? s.main = some main)
    (hroom : s.items + Move.peak [move] ≤ stackLimit) (hroom' : main.length + s.alt.length ≤ stackLimit) :
    ∃ actions, drive ctx operations s = ({ s with main, pc := s.pc + operations.length }, .ok actions) := by
  cases h with
  | @fetch keep index push hpush =>
    have hlt : s.items < stackLimit := by cases keep <;> exact hroom
    obtain ⟨pushed, first, hread, hpushed⟩ := hpush.execute hx hlt
    let s₁ : State := { s with main := pushed :: s.main, pc := s.pc + 1 }
    obtain ⟨second, hfetch⟩ := execute_fetch ctx keep (s := s₁) hx rfl hread hmove
    have hfetched := hfetch.trans (State.sized_of_le (s := { s₁ with main }) hroom' second)
    refine ⟨[first, second], drive_cons_eq_ok_iff.2 ⟨_, first, [second], hpushed, ?_, rfl⟩⟩
    exact drive_cons_eq_ok_iff.2 ⟨_, second, [], hfetched, rfl, rfl⟩
  | drop =>
    match hmain : s.main, hmove with
    | item :: rest, rfl =>
      have happly : Shuffle.drop.apply? s.main = some (rest, item) := by rw [hmain]; rfl
      have hdepth : Shuffle.drop.depth ≤ s.main.length := by
        rw [hmain]
        exact Nat.le_add_left 1 _
      have hdropped := (execute_shuffle ctx hx hdepth happly).trans
        (State.sized_of_le (s := { s with main := rest }) hroom' _)
      exact ⟨_, drive_cons_eq_ok_iff.2 ⟨_, _, [], hdropped, rfl, rfl⟩⟩

/-- the operations that stand for moves make them, and there are never more items than there is room for -/
theorem drive_expansion {moves : List Move} {operations : List Operation} {main : Stack}
    (h : Move.Expansion ctx.strict moves operations) (hx : s.executing) (hrun : Move.run? moves s.main = some main)
    (hroom : s.items + Move.peak moves ≤ stackLimit) :
    ∃ actions, drive ctx operations s = ({ s with main, pc := s.pc + operations.length }, .ok actions) := by
  -- over the moves; what carries it is that there is room for the rest once a move is made
  induction h generalizing s with
  | nil =>
    cases hrun
    exact ⟨[], rfl⟩
  | @cons move moves operations more hmove hmoves ih =>
    obtain ⟨main₁, hfirst, hlater⟩ := Option.bind_eq_some_iff.1 hrun
    obtain ⟨hneeds, hleaves⟩ := Move.room_of_cons hfirst hroom
    obtain ⟨first, hdrive⟩ := hmove.drive hx hfirst hneeds (Nat.le_trans (Nat.le_add_right _ _) hleaves)
    obtain ⟨later, hmore⟩ :=
      ih (s := { s with main := main₁, pc := s.pc + operations.length }) hx hlater hleaves
    refine ⟨first ++ later, ?_⟩
    rw [drive_append, hdrive, List.length_append, ← Nat.add_assoc]
    simp only [hmore]
    rfl

end Execution

/-- **Rearrangements are moves of single items.** With the items that it needs, and with room for the indices, each
opcode that rearranges the stack leaves the same stacks as the pushes of indices and the opcodes that copy and move
single items for it; and these copy or move exactly the item at the index. -/
theorem rearrangements_are_moves (ctx : Context) (s : State) (hx : s.executing) :
    (∀ (kind : Shuffle) (operations : List Operation), Move.Expansion ctx.strict kind.moves operations →
      kind.depth ≤ s.main.length → s.items + Move.peak kind.moves ≤ stackLimit →
      ∃ s' action actions, execute ctx (.code kind.opcode) s = (s', .ok action) ∧
        drive ctx operations s = ({ s' with pc := s.pc + operations.length }, .ok actions)) ∧
    ∀ (index : Bytes) (rest : Stack) (n : Int), s.main = index :: rest →
      Number.read index operandLimit ctx.strict = .ok n → 0 ≤ n → n < rest.length →
      ∃ above item below moved copied, rest = above ++ item :: below ∧ (above.length : Int) = n ∧
        (item :: (above ++ below)).Perm rest ∧
        execute ctx (.code (.fetch false)) s = { s with main := item :: (above ++ below) : State }.sized moved ∧
        execute ctx (.code (.fetch true)) s = { s with main := item :: rest : State }.sized copied := by
  constructor
  · intro kind operations hexpansion hdepth hroom
    obtain ⟨⟨main, item⟩, happly⟩ := Shuffle.exists_of_depth_le hdepth
    have hrun : Move.run? kind.moves s.main = some main := Shuffle.run_moves happly
    obtain ⟨actions, hdrive⟩ := drive_expansion hexpansion hx hrun hroom
    have hshuffled := (execute_shuffle ctx hx hdepth happly).trans
      (State.sized_of_le (s := { s with main }) (Move.room_of_run hrun hroom) _)
    exact ⟨{ s with main }, _, actions, hshuffled, hdrive⟩
  · intro index rest n hmain hread hn hlt
    obtain ⟨k, rfl⟩ := Int.eq_ofNat_of_zero_le hn
    have hk : k < rest.length := Int.ofNat_lt.1 hlt
    have hsplit : rest = rest.take k ++ rest[k] :: rest.drop (k + 1) := by
      rw [← List.drop_eq_getElem_cons, List.take_append_drop]
    have hitem : rest[k]? = some rest[k] := List.getElem?_eq_getElem hk
    obtain ⟨moved, hmoved⟩ := execute_fetch ctx false hx hmain hread (Option.map_eq_some_iff.2 ⟨_, hitem, rfl⟩)
    obtain ⟨copied, hcopied⟩ := execute_fetch ctx true hx hmain hread (Option.map_eq_some_iff.2 ⟨_, hitem, rfl⟩)
    rw [if_neg Bool.false_ne_true, List.eraseIdx_eq_take_drop_succ] at hmoved
    have hperm : (rest[k] :: (rest.take k ++ rest.drop (k + 1))).Perm rest :=
      List.perm_middle.symm.trans (.of_eq hsplit.symm)
    refine ⟨rest.take k, rest[k], rest.drop (k + 1), moved, copied, hsplit, ?_, hperm, hmoved, hcopied⟩
    rw [List.length_take_of_le (Nat.le_of_lt hk)]

/-- six items are rotated by an index that is written in one byte and then in two; and an index of two bytes brings up
the lowest of three items -/
theorem rearrangements_are_moves_rot2 :
    let ctx : Context := ⟨⟨[]⟩, none, false⟩
    let s : State := ⟨[[1], [2], [3], [4], [5], [6]], [], .none, 0, 0⟩
    let s' : State := ⟨[[2, 0], [1], [2], [3]], [], .none, 0, 0⟩
    (∃ actions, drive ctx [.code ⟨0x55⟩, .code (.fetch false), .push [5, 0], .code (.fetch false)] s =
      ({ s with main := [[5], [6], [1], [2], [3], [4]], pc := 4 }, .ok actions)) ∧
    ∃ action, execute ctx (.code (.fetch false)) s' = ({ s' with main := [[3], [1], [2]] }, .ok action) := by
  intro ctx s s'
  constructor
  · have hexpansion : Move.Expansion false Shuffle.rot2.moves
        [.code ⟨0x55⟩, .code (.fetch false), .push [5, 0], .code (.fetch false)] :=
      .cons (.fetch (.code rfl)) (.cons (.fetch (.data rfl)) .nil)
    obtain ⟨rotated, action, actions, hrotated, hdrive⟩ :=
      (rearrangements_are_moves ctx s rfl).1 .rot2 _ hexpansion (by decide) (by decide)
    cases (show execute ctx (.code ⟨0x71⟩) s = (_, .ok (.shuffled .rot2 [])) from rfl).symm.trans hrotated
    exact ⟨actions, hdrive⟩
  · obtain ⟨above, item, below, moved, copied, hrest, hlength, -, hmoved, -⟩ :=
      (rearrangements_are_moves ctx s' rfl).2 [2, 0] [[1], [2], [3]] 2 rfl rfl (by decide) (by decide)
    match above, hlength with
    | [_, _], _ =>
      cases hrest
      exact ⟨moved, hmoved⟩

end BitcoinScript
