/-
The record of open blocks as a plain list. Beside the blocks it keeps the place of the outermost one that is not taken,
so that nobody has to look at all of them. Opening, closing and turning a block repair this place each in its own way,
and leave it alone where a block further out is not taken; after any of them it is the place that a search would find.

Results:
- `Branches.Listed.call`: each call answers as it does on the list, and keeps the place.
- `blocks_as_list`: so any calls do. The place that is kept is that of the first block in the list that is not taken, or
  none if there is none; so all blocks are taken by the record if and only if each of them is. A call is refused, and
  then changes nothing, if and only if it closes a block and there is none, or turns one and there is none or the last
  has been turned; and a block that has just been turned is not turned again.
- `Context.executing_of_reach`: wherever a run comes to, it executes operations exactly if every open block is taken.
-/
import BitcoinScript.Proofs.Conditional.Skipping

namespace BitcoinScript

/-- a call on the record of open blocks -/
inductive BlockCall where
  | push (taken : Bool)
  | pop
  | turn

namespace BlockCall

/-- the record after a call, and whether the call is accepted -/
def onRecord (branches : Branches) : BlockCall → Branches × Bool
  | .push taken => (branches.push taken, true)
  | .pop => (branches.pop?.getD branches, branches.pop?.isSome)
  | .turn => (branches.turn?.getD branches, branches.turn?.isSome)

/-- the same on a list of blocks, outermost first: the last block is turned if it was not, and then has been -/
def onList (blocks : List Block) : BlockCall → List Block × Bool
  | .push taken => (blocks ++ [⟨taken, false⟩], true)
  | .pop => (blocks.dropLast, !blocks.isEmpty)
  | .turn =>
    match blocks.getLast? with
    | some ⟨taken, false⟩ => (blocks.dropLast ++ [⟨!taken, true⟩], true)
    | _ => (blocks, false)

/-- makes calls, one after another, and keeps what they answer -/
def makeAll {α : Type} (make : α → BlockCall → α × Bool) : List BlockCall → α → α × List Bool
  | [], a => (a, [])
  | call :: calls, a =>
    let (last, answers) := makeAll make calls (make a call).1
    (last, (make a call).2 :: answers)

end BlockCall

/-- where the first block that is not taken stands in a list, if there is one -/
def firstSkippedOf (blocks : List Block) : Option Nat :=
  blocks.findIdx? fun block => !block.taken

/-- the record holds these blocks, outermost first, and the place of the first that is not taken -/
structure Branches.Listed (branches : Branches) (blocks : List Block) : Prop where
  blocks_eq : branches.blocks.reverse = blocks
  firstSkipped_eq : branches.firstSkipped = firstSkippedOf blocks

/-- a last block counts if none before it does -/
theorem firstSkippedOf_concat (outer : List Block) (block : Block) :
    firstSkippedOf (outer ++ [block]) =
      (firstSkippedOf outer).or (if block.taken then none else some outer.length) := by
  rw [firstSkippedOf, List.findIdx?_append, List.findIdx?_singleton]
  cases block.taken <;> simp [firstSkippedOf]

theorem lt_of_firstSkippedOf {blocks : List Block} {k : Nat} (h : firstSkippedOf blocks = some k) : k < blocks.length :=
  (List.findIdx?_eq_some_iff_findIdx_eq.1 h).1

theorem isNone_firstSkippedOf (blocks : List Block) : (firstSkippedOf blocks).isNone = blocks.all Block.taken := by
  rw [firstSkippedOf, List.findIdx?_isNone]
  congr 1
  funext block
  cases block.taken <;> rfl

namespace Branches.Listed

variable {branches : Branches} {blocks : List Block}

theorem none : Branches.none.Listed [] :=
  ⟨rfl, rfl⟩

/-- no block is skipped by the record if and only if all are taken -/
theorem allTaken_eq (h : branches.Listed blocks) : branches.allTaken = blocks.all Block.taken := by
  rw [allTaken, h.firstSkipped_eq, isNone_firstSkippedOf]

theorem count_eq (h : branches.Listed blocks) : branches.count = blocks.length := by
  rw [← h.blocks_eq, List.length_reverse, count]

theorem push (h : branches.Listed blocks) (taken : Bool) :
    (branches.push taken).Listed (blocks ++ [⟨taken, false⟩]) := by
  constructor
  · rw [← h.blocks_eq, Branches.push, List.reverse_cons]
  · rw [firstSkippedOf_concat, ← h.firstSkipped_eq, ← h.count_eq]
    obtain ⟨inner, skipped⟩ := branches
    cases skipped <;> cases taken <;> rfl

/-- closing a block leaves the place of a block further out -/
theorem pop {block : Block} (h : branches.Listed (blocks ++ [block])) :
    ∃ after, branches.pop? = some after ∧ after.Listed blocks := by
  obtain ⟨inner, skipped⟩ := branches
  obtain ⟨hblocks, hskipped⟩ := h
  obtain rfl : inner = block :: blocks.reverse := by simpa using congrArg List.reverse hblocks
  refine ⟨_, rfl, List.reverse_reverse blocks, ?_⟩
  simp only at hskipped
  simp only [hskipped, firstSkippedOf_concat, List.length_reverse]
  cases hk : firstSkippedOf blocks with
  | none => cases block.taken <;> simp
  | some k => simp [Nat.ne_of_lt (lt_of_firstSkippedOf hk)]

/-- turning a block changes the place if no block further out is skipped, and then to and fro -/
theorem turn {taken : Bool} (h : branches.Listed (blocks ++ [⟨taken, false⟩])) :
    ∃ after, branches.turn? = some after ∧ after.Listed (blocks ++ [⟨!taken, true⟩]) := by
  obtain ⟨inner, skipped⟩ := branches
  obtain ⟨hblocks, hskipped⟩ := h
  obtain rfl : inner = ⟨taken, false⟩ :: blocks.reverse := by simpa using congrArg List.reverse hblocks
  refine ⟨_, rfl, by simp, ?_⟩
  simp only at hskipped
  simp only [hskipped, firstSkippedOf_concat, List.length_reverse]
  cases hk : firstSkippedOf blocks with
  | none => cases taken <;> simp
  | some k => simp [Nat.ne_of_lt (lt_of_firstSkippedOf hk)]

theorem refuse_nil (h : branches.Listed []) : branches.pop? = Option.none ∧ branches.turn? = Option.none := by
  obtain ⟨inner, skipped⟩ := branches
  obtain rfl : inner = [] := List.reverse_eq_nil_iff.1 h.blocks_eq
  exact ⟨rfl, rfl⟩

theorem turn?_turned {taken : Bool} (h : branches.Listed (blocks ++ [⟨taken, true⟩])) :
    branches.turn? = Option.none := by
  obtain ⟨inner, skipped⟩ := branches
  obtain rfl : inner = ⟨taken, true⟩ :: blocks.reverse := by simpa using congrArg List.reverse h.blocks_eq
  rfl

/-- every call does to the record what it does to the list, and answers the same -/
theorem call (h : branches.Listed blocks) (call : BlockCall) :
    (call.onRecord branches).1.Listed (call.onList blocks).1 ∧
      (call.onRecord branches).2 = (call.onList blocks).2 := by
  cases call with
  | push taken => exact ⟨h.push taken, rfl⟩
  | pop =>
    rcases List.eq_nil_or_concat blocks with rfl | ⟨outer, block, rfl⟩
    · simp only [BlockCall.onRecord, h.refuse_nil.1]
      exact ⟨h, rfl⟩
    · rw [List.concat_eq_append] at h ⊢
      obtain ⟨after, hpop, hafter⟩ := h.pop
      simp only [BlockCall.onRecord, BlockCall.onList, hpop, List.dropLast_concat]
      exact ⟨hafter, by simp⟩
  | turn =>
    rcases List.eq_nil_or_concat blocks with rfl | ⟨outer, ⟨taken, turned⟩, rfl⟩
    · simp only [BlockCall.onRecord, h.refuse_nil.2]
      exact ⟨h, rfl⟩
    · rw [List.concat_eq_append] at h ⊢
      cases turned with
      | false =>
        obtain ⟨after, hturn, hafter⟩ := h.turn
        simp only [BlockCall.onRecord, BlockCall.onList, hturn, List.dropLast_concat, List.getLast?_concat]
        exact ⟨hafter, rfl⟩
      | true =>
        simp only [BlockCall.onRecord, BlockCall.onList, h.turn?_turned, List.getLast?_concat]
        exact ⟨h, rfl⟩

/-- and so do calls one after another -/
theorem makeAll (h : branches.Listed blocks) (calls : List BlockCall) :
    let made := BlockCall.makeAll BlockCall.onRecord calls branches
    let listed := BlockCall.makeAll BlockCall.onList calls blocks
    made.1.Listed listed.1 ∧ made.2 = listed.2 := by
  induction calls generalizing branches blocks with
  | nil => exact ⟨h, rfl⟩
  | cons call calls ih =>
    obtain ⟨hafter, hanswer⟩ := h.call call
    obtain ⟨hlast, hanswers⟩ := ih hafter
    exact ⟨hlast, congr (congrArg List.cons hanswer) hanswers⟩

end Branches.Listed

/-! ## Refused calls -/

theorem BlockCall.onList_eq_false_iff (call : BlockCall) (blocks : List Block) :
    (call.onList blocks).2 = false ↔
      call = .pop ∧ blocks = [] ∨ call = .turn ∧ ∀ block ∈ blocks.getLast?, block.turned := by
  cases call with
  | push taken => simp [onList]
  | pop => simp [onList]
  | turn =>
    simp only [onList]
    rcases blocks.getLast? with _ | ⟨taken, _ | _⟩ <;> simp

theorem BlockCall.onRecord_of_refused {call : BlockCall} {branches : Branches}
    (h : (call.onRecord branches).2 = false) : (call.onRecord branches).1 = branches := by
  cases call with
  | push taken => cases h
  | pop | turn =>
    simp only [onRecord, Option.isSome_eq_false_iff, Option.isNone_iff_eq_none] at h
    rw [onRecord, h, Option.getD_none]

/-- a block that has been turned is not turned again -/
theorem Branches.turn?_of_turn? {branches turned : Branches} (h : branches.turn? = some turned) :
    turned.turn? = Option.none := by
  obtain ⟨_ | ⟨⟨taken, _ | _⟩, outer⟩, skipped⟩ := branches <;> cases h
  rfl

/-- **The record of open blocks is a list with a place kept beside it.** After any calls on a new record, and the same
calls on an empty list, the calls have answered alike, and the record holds the blocks of the list and the place of the
first one that is not taken. -/
theorem blocks_as_list (calls : List BlockCall) :
    let onRecord := BlockCall.makeAll BlockCall.onRecord calls .none
    let onList := BlockCall.makeAll BlockCall.onList calls []
    let branches := onRecord.1
    let blocks := onList.1
    onRecord.2 = onList.2 ∧ branches.blocks.reverse = blocks ∧
      branches.firstSkipped = blocks.findIdx? (fun block => !block.taken) ∧
      branches.allTaken = blocks.all Block.taken ∧
      branches.count = blocks.length ∧ branches.blocks.isEmpty = blocks.isEmpty ∧
      (∀ call : BlockCall, (call.onRecord branches).2 = false ↔
        call = .pop ∧ blocks = [] ∨ call = .turn ∧ ∀ block ∈ blocks.getLast?, block.turned) ∧
      (∀ call : BlockCall, (call.onRecord branches).2 = false → (call.onRecord branches).1 = branches) ∧
      ∀ turned, branches.turn? = some turned → turned.turn? = none := by
  intro onRecord onList branches blocks
  obtain ⟨hlisted, hanswers⟩ := Branches.Listed.none.makeAll calls
  have hlisted : branches.Listed blocks := hlisted
  refine ⟨hanswers, hlisted.blocks_eq, hlisted.firstSkipped_eq, hlisted.allTaken_eq, hlisted.count_eq, ?_, ?_,
    fun call => BlockCall.onRecord_of_refused, ?_⟩
  · rw [← hlisted.blocks_eq, List.isEmpty_reverse]
  · intro call
    rw [(hlisted.call call).2, call.onList_eq_false_iff]
  · intro turned hturned
    exact Branches.turn?_of_turn? hturned

/-! ## Runs -/

theorem Branches.Built.listed {branches : Branches} (h : branches.Built) : branches.Listed branches.blocks.reverse := by
  suffices hlisted : ∃ blocks, branches.Listed blocks by
    obtain ⟨blocks, hlisted⟩ := hlisted
    exact hlisted.blocks_eq ▸ hlisted
  induction h with
  | none => exact ⟨_, .none⟩
  | push taken h ih =>
    obtain ⟨blocks, hlisted⟩ := ih
    exact ⟨_, hlisted.push taken⟩
  | @turn branches turned h ht ih =>
    obtain ⟨blocks, hlisted⟩ := ih
    have hcall := (hlisted.call .turn).1
    rw [BlockCall.onRecord, ht] at hcall
    exact ⟨_, hcall⟩
  | @pop branches closed h hp ih =>
    obtain ⟨blocks, hlisted⟩ := ih
    have hcall := (hlisted.call .pop).1
    rw [BlockCall.onRecord, hp] at hcall
    exact ⟨_, hcall⟩

/-- wherever a run comes to, operations are executed if and only if every open block is taken -/
theorem Context.executing_of_reach {ctx : Context} {n : Nat} {s : State} (h : ctx.reach n = some s) :
    s.executing ↔ ∀ block ∈ s.branches.blocks, block.taken := by
  have hlisted := (built_of_reach h).listed
  rw [State.executing, hlisted.allTaken_eq, List.all_reverse, List.all_eq_true]

end BitcoinScript
