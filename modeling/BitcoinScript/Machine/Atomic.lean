/-
Instructions in place are all or nothing. Carried out in place, an instruction leaves the state and does what its
meaning says; where that is a failure, the state is the one it began with, whatever the instruction had looked at or
would have changed next. And it never asks for an item where a stack has none.

Each instruction has one lemma, under the condition that is checked before it: enough items for its pattern.
-/
import BitcoinScript.Machine.InPlace

namespace BitcoinScript

open Effect

/-- an effect that is all or nothing, as it ends on a state -/
def Effect.settled {α : Type} (s : State) : Except Failure (State × α) → EStateM.Result Stop State α
  | .ok (s', a) => .ok a s'
  | .error failure => .error (.failure failure) s

theorem Effect.run_pop (s : State) : pop.run s = settled s (s.popMain.map Prod.swap) := by
  simp only [pop, EStateM.run_bind, EStateM.run_get]
  cases s.popMain <;> rfl

/-! ## The main stack -/

/-- a rearrangement with enough items succeeds. Some of them take items out at a height: the rest of the stack ends
there, and the height stays the same while items above it go -/
theorem Shuffle.run_perform (kind : Shuffle) (s : State) (h : kind.depth ≤ s.main.length) :
    ∃ main item, kind.apply? s.main = some (main, item) ∧
      kind.perform.run s = .ok (.shuffled kind item) { s with main } := by
  obtain ⟨main, alt, branches, pc, start⟩ := s
  cases kind with
  | drop2 => match main, h with | _ :: _ :: _, _ => exact ⟨_, _, rfl, rfl⟩
  | dup2 => match main, h with | _ :: _ :: _, _ => exact ⟨_, _, rfl, rfl⟩
  | dup3 => match main, h with | _ :: _ :: _ :: _, _ => exact ⟨_, _, rfl, rfl⟩
  | over2 => match main, h with | _ :: _ :: _ :: _ :: _, _ => exact ⟨_, _, rfl, rfl⟩
  | drop => match main, h with | _ :: _, _ => exact ⟨_, _, rfl, rfl⟩
  | dup => match main, h with | _ :: _, _ => exact ⟨_, _, rfl, rfl⟩
  | «over» => match main, h with | _ :: _ :: _, _ => exact ⟨_, _, rfl, rfl⟩
  | rot2 =>
    match main, h with
    | f :: e :: d :: c :: b :: a :: rest, _ =>
      have hb : (below 6).run ⟨f :: e :: d :: c :: b :: a :: rest, alt, branches, pc, start⟩ = .ok rest.length _ :=
        run_below [f, e, d, c, b, a] rfl rfl
      have ha : (remove rest.length).run ⟨f :: e :: d :: c :: b :: a :: rest, alt, branches, pc, start⟩ =
          .ok a ⟨f :: e :: d :: c :: b :: rest, alt, branches, pc, start⟩ :=
        run_remove [f, e, d, c, b] rfl rfl
      have hb' : (remove rest.length).run ⟨f :: e :: d :: c :: b :: rest, alt, branches, pc, start⟩ =
          .ok b ⟨f :: e :: d :: c :: rest, alt, branches, pc, start⟩ :=
        run_remove [f, e, d, c] rfl rfl
      refine ⟨b :: a :: f :: e :: d :: c :: rest, [], rfl, ?_⟩
      simp only [Shuffle.perform, EStateM.run_bind, hb, ha, hb']
      rfl
  | swap2 =>
    match main, h with
    | d :: c :: b :: a :: rest, _ =>
      have hb : (below 4).run ⟨d :: c :: b :: a :: rest, alt, branches, pc, start⟩ = .ok rest.length _ :=
        run_below [d, c, b, a] rfl rfl
      have ha : (remove rest.length).run ⟨d :: c :: b :: a :: rest, alt, branches, pc, start⟩ =
          .ok a ⟨d :: c :: b :: rest, alt, branches, pc, start⟩ := run_remove [d, c, b] rfl rfl
      have hb' : (remove rest.length).run ⟨d :: c :: b :: rest, alt, branches, pc, start⟩ =
          .ok b ⟨d :: c :: rest, alt, branches, pc, start⟩ := run_remove [d, c] rfl rfl
      refine ⟨b :: a :: d :: c :: rest, [], rfl, ?_⟩
      simp only [Shuffle.perform, EStateM.run_bind, hb, ha, hb']
      rfl
  | nip =>
    match main, h with
    | b :: a :: rest, _ =>
      have hb : (below 2).run ⟨b :: a :: rest, alt, branches, pc, start⟩ = .ok rest.length _ :=
        run_below [b, a] rfl rfl
      have ha : (remove rest.length).run ⟨b :: a :: rest, alt, branches, pc, start⟩ =
          .ok a ⟨b :: rest, alt, branches, pc, start⟩ := run_remove [b] rfl rfl
      refine ⟨b :: rest, a, rfl, ?_⟩
      simp only [Shuffle.perform, EStateM.run_bind, hb, ha]
      rfl
  | rot =>
    match main, h with
    | c :: b :: a :: rest, _ =>
      have hb : (below 3).run ⟨c :: b :: a :: rest, alt, branches, pc, start⟩ = .ok rest.length _ :=
        run_below [c, b, a] rfl rfl
      have ha : (remove rest.length).run ⟨c :: b :: a :: rest, alt, branches, pc, start⟩ =
          .ok a ⟨c :: b :: rest, alt, branches, pc, start⟩ := run_remove [c, b] rfl rfl
      refine ⟨a :: c :: b :: rest, [], rfl, ?_⟩
      simp only [Shuffle.perform, EStateM.run_bind, hb, ha]
      rfl
  | swap =>
    match main, h with
    | b :: a :: rest, _ =>
      have hb : (below 2).run ⟨b :: a :: rest, alt, branches, pc, start⟩ = .ok rest.length _ :=
        run_below [b, a] rfl rfl
      have ha : (remove rest.length).run ⟨b :: a :: rest, alt, branches, pc, start⟩ =
          .ok a ⟨b :: rest, alt, branches, pc, start⟩ := run_remove [b] rfl rfl
      refine ⟨a :: b :: rest, [], rfl, ?_⟩
      simp only [Shuffle.perform, EStateM.run_bind, hb, ha]
      rfl
  | tuck =>
    match main, h with
    | b :: a :: rest, _ =>
      have ht : (top 1).run ⟨b :: a :: rest, alt, branches, pc, start⟩ = .ok b _ := run_top rfl
      have hb : (below 2).run ⟨b :: a :: rest, alt, branches, pc, start⟩ = .ok rest.length _ :=
        run_below [b, a] rfl rfl
      have hi : (insert rest.length b).run ⟨b :: a :: rest, alt, branches, pc, start⟩ =
          .ok () ⟨b :: a :: b :: rest, alt, branches, pc, start⟩ := run_insert [b, a] rfl rfl
      refine ⟨b :: a :: b :: rest, b, rfl, ?_⟩
      simp only [Shuffle.perform, EStateM.run_bind, ht, hb, hi]
      rfl

namespace StackOp

/-- the index goes first, and the item is looked up in what is left; so the check before must be against that -/
theorem run_performFetch (strict keep : Bool) (s : State) (h : 1 ≤ s.main.length) :
    (performFetch strict keep).run s =
      settled s (((fetch keep).apply strict s.main).map fun (main, action) => ({ s with main }, action)) := by
  obtain ⟨main, alt, branches, pc, start⟩ := s
  match main, h with
  | item :: rest, _ =>
    have hx : (topNumber strict 1).run ⟨item :: rest, alt, branches, pc, start⟩ =
        (attempt (operand strict item)).run ⟨item :: rest, alt, branches, pc, start⟩ := run_topNumber rfl
    have ha : (fetch keep).apply strict (item :: rest) = operand strict item >>= fun n => fetchItem keep n rest := rfl
    simp only [performFetch, EStateM.run_bind, hx, ha]
    cases operand strict item with
    | error failure => rfl
    | ok index =>
      show EStateM.run (if index < 0 ∨ (rest.length : Int) ≤ index then _ else _) _ =
        settled _ ((fetchItem keep index rest).map _)
      by_cases hr : index < 0 ∨ (rest.length : Int) ≤ index
      · have hn : (if index < 0 then none else rest[index.toNat]?) = none := by
          rcases hr with hr | hr
          · rw [if_pos hr]
          · rw [if_neg (by omega), List.getElem?_eq_none (by omega)]
        simp only [fetchItem, if_pos hr, hn]
        rfl
      · have hlt : index.toNat < rest.length := by omega
        have hget : rest[index.toNat]? = some rest[index.toNat] := List.getElem?_eq_getElem hlt
        have hn : (if index < 0 then none else rest[index.toNat]?) = some rest[index.toNat] := by
          rw [if_neg (by omega), hget]
        have hcut : rest = rest.take index.toNat ++ rest[index.toNat] :: rest.drop (index.toNat + 1) := by
          rw [← List.drop_eq_getElem_cons hlt, List.take_append_drop]
        have hd : dropTop.run ⟨item :: rest, alt, branches, pc, start⟩ = .ok () ⟨rest, alt, branches, pc, start⟩ := rfl
        have hb : (below (index.toNat + 1)).run ⟨rest, alt, branches, pc, start⟩ =
            .ok (rest.drop (index.toNat + 1)).length _ :=
          run_below (rest.take (index.toNat + 1)) (List.take_append_drop _ _).symm (by rw [List.length_take]; omega)
        have ht : (top (index.toNat + 1)).run ⟨rest, alt, branches, pc, start⟩ = .ok rest[index.toNat] _ := run_top hget
        have hm : (remove (rest.drop (index.toNat + 1)).length).run ⟨rest, alt, branches, pc, start⟩ =
            .ok rest[index.toNat] ⟨rest.eraseIdx index.toNat, alt, branches, pc, start⟩ := by
          rw [List.eraseIdx_eq_take_drop_succ]
          exact run_remove _ hcut rfl
        simp only [fetchItem, if_neg hr, hn, EStateM.run_bind, hd, hb]
        cases keep with
        | true =>
          simp only [if_true, EStateM.run_bind, ht]
          rfl
        | false =>
          simp only [Bool.false_eq_true, if_false, EStateM.run_bind, hm]
          rfl

theorem run_perform (strict : Bool) (op : StackOp) (s : State) (h : op.depth ≤ s.main.length) :
    (op.perform strict).run s =
      settled s ((op.apply strict s.main).map fun (main, action) => ({ s with main }, action)) := by
  cases op with
  | shuffle kind =>
    obtain ⟨main, item, ha, hp⟩ := kind.run_perform s h
    have happ : (shuffle kind).apply strict s.main = .ok (main, .shuffled kind item) := by simp only [apply, ha]
    rw [perform, hp, happ]
    rfl
  | fetch keep => exact run_performFetch strict keep s h
  | nop => rfl
  | ignored op => rfl
  | pushNumber n => rfl
  | unspendable => rfl
  | pushDepth => rfl
  | verify =>
    obtain ⟨main, alt, branches, pc, start⟩ := s
    match main, h with
    | item :: rest, _ =>
      have ht : (top 1).run ⟨item :: rest, alt, branches, pc, start⟩ = .ok item _ := run_top rfl
      simp only [perform, apply, EStateM.run_bind, ht]
      split <;> rfl
  | dupIfTrue =>
    obtain ⟨main, alt, branches, pc, start⟩ := s
    match main, h with
    | item :: rest, _ =>
      have ht : (top 1).run ⟨item :: rest, alt, branches, pc, start⟩ = .ok item _ := run_top rfl
      simp only [perform, apply, EStateM.run_bind, ht]
      split <;> rfl
  | pushSize =>
    obtain ⟨main, alt, branches, pc, start⟩ := s
    match main, h with
    | item :: rest, _ => rfl
  | equal verify =>
    obtain ⟨main, alt, branches, pc, start⟩ := s
    match main, h with
    | b :: a :: rest, _ =>
      cases verify with
      | false => rfl
      | true =>
        have ha : (top 2).run ⟨b :: a :: rest, alt, branches, pc, start⟩ = .ok a _ := run_top rfl
        have hb : (top 1).run ⟨b :: a :: rest, alt, branches, pc, start⟩ = .ok b _ := run_top rfl
        simp only [perform, apply, EStateM.run_bind, ha, hb]
        split <;> rfl
  | unary op =>
    obtain ⟨main, alt, branches, pc, start⟩ := s
    match main, h with
    | item :: rest, _ =>
      have hx : (topNumber strict 1).run ⟨item :: rest, alt, branches, pc, start⟩ =
          (attempt (operand strict item)).run ⟨item :: rest, alt, branches, pc, start⟩ := run_topNumber rfl
      simp only [perform, apply, EStateM.run_bind, hx]
      cases operand strict item <;> rfl
  | binary op =>
    obtain ⟨main, alt, branches, pc, start⟩ := s
    match main, h with
    | b :: a :: rest, _ =>
      have hx : (topNumber strict 2).run ⟨b :: a :: rest, alt, branches, pc, start⟩ =
          (attempt (operand strict a)).run ⟨b :: a :: rest, alt, branches, pc, start⟩ := run_topNumber rfl
      have hy : (topNumber strict 1).run ⟨b :: a :: rest, alt, branches, pc, start⟩ =
          (attempt (operand strict b)).run ⟨b :: a :: rest, alt, branches, pc, start⟩ := run_topNumber rfl
      simp only [perform, apply, EStateM.run_bind, hx]
      cases operand strict a with
      | error failure => rfl
      | ok x =>
        simp only [run_attempt_ok, hy]
        cases operand strict b <;> rfl
  | equalNumbersVerify =>
    obtain ⟨main, alt, branches, pc, start⟩ := s
    match main, h with
    | b :: a :: rest, _ =>
      have hx : (topNumber strict 2).run ⟨b :: a :: rest, alt, branches, pc, start⟩ =
          (attempt (operand strict a)).run ⟨b :: a :: rest, alt, branches, pc, start⟩ := run_topNumber rfl
      have hy : (topNumber strict 1).run ⟨b :: a :: rest, alt, branches, pc, start⟩ =
          (attempt (operand strict b)).run ⟨b :: a :: rest, alt, branches, pc, start⟩ := run_topNumber rfl
      simp only [perform, apply, EStateM.run_bind, hx]
      cases operand strict a with
      | error failure => rfl
      | ok x =>
        simp only [run_attempt_ok, hy]
        cases operand strict b with
        | error failure => rfl
        | ok y =>
          show EStateM.run (if x = y then _ else _) _ = settled _ ((if x = y then _ else _ : Except _ _).map _)
          split <;> rfl
  | within =>
    obtain ⟨main, alt, branches, pc, start⟩ := s
    match main, h with
    | c :: b :: a :: rest, _ =>
      have hx : (topNumber strict 3).run ⟨c :: b :: a :: rest, alt, branches, pc, start⟩ =
          (attempt (operand strict a)).run ⟨c :: b :: a :: rest, alt, branches, pc, start⟩ := run_topNumber rfl
      have hl : (topNumber strict 2).run ⟨c :: b :: a :: rest, alt, branches, pc, start⟩ =
          (attempt (operand strict b)).run ⟨c :: b :: a :: rest, alt, branches, pc, start⟩ := run_topNumber rfl
      have hh : (topNumber strict 1).run ⟨c :: b :: a :: rest, alt, branches, pc, start⟩ =
          (attempt (operand strict c)).run ⟨c :: b :: a :: rest, alt, branches, pc, start⟩ := run_topNumber rfl
      simp only [perform, apply, EStateM.run_bind, hx]
      cases operand strict a with
      | error failure => rfl
      | ok x =>
        simp only [run_attempt_ok, hl]
        cases operand strict b with
        | error failure => rfl
        | ok low =>
          simp only [run_attempt_ok, hh]
          cases operand strict c <;> rfl
  | hash digest =>
    obtain ⟨main, alt, branches, pc, start⟩ := s
    match main, h with
    | item :: rest, _ => rfl

end StackOp

/-! ## Blocks -/

theorem FlowOp.run_perform (op : FlowOp) (s : State) : op.perform.run s = settled s (op.apply s) := by
  cases op with
  | openBlock negated =>
    simp only [perform, apply, EStateM.run_bind, EStateM.run_get]
    by_cases he : s.executing
    · rw [if_pos he, if_pos he]
      simp only [EStateM.run_bind, run_pop s]
      cases s.popMain <;> rfl
    · rw [if_neg he, if_neg he]
      rfl
  | turnBlock =>
    have ht : Effect.turnBlock.run s = (attempt s.turnBlock >>= fun s' => set s').run s := rfl
    simp only [perform, apply, EStateM.run_bind, ht]
    cases s.turnBlock <;> rfl
  | closeBlock =>
    have hx : Effect.exitBlock.run s = (attempt s.exitBlock >>= fun s' => set s').run s := rfl
    simp only [perform, apply, EStateM.run_bind, hx]
    cases s.exitBlock <;> rfl

/-! ## Signatures -/

/-- the walk by indices gives the keys to the signatures as the walk down the two lists does. What carries it is that as
many keys as signatures are left, so that there is a next key whenever there is a next signature -/
theorem run_matchKeys (check : Verdict) (signatures keys : List Bytes) (matched key : Nat) (s : State)
    (hm : matched ≤ signatures.length) (hk : key ≤ keys.length)
    (h : signatures.length - matched ≤ keys.length - key) :
    (matchKeys (fun signature key => attempt (check signature key)) signatures keys matched key).run s =
      settled s ((unmatched check (signatures.drop matched) (keys.drop key)).map fun left =>
        (s, signatures.length - left.length, left.isEmpty)) := by
  induction hn : keys.length - key generalizing matched key with
  | zero =>
    have he : matched = signatures.length := by omega
    rw [matchKeys, if_neg (by omega), he, List.drop_length, unmatched]
    rfl
  | succ n ih =>
    rw [matchKeys]
    by_cases hlt : matched < signatures.length
    · have hkl : key < keys.length := by omega
      have hx : (expect signatures[matched]?).run s = .ok signatures[matched] s := by
        rw [List.getElem?_eq_getElem hlt]
        rfl
      rw [if_pos hlt, List.drop_eq_getElem_cons hlt, List.drop_eq_getElem_cons hkl, unmatched]
      simp only [EStateM.run_bind, liftM_eq, hx, dif_pos hkl]
      cases check signatures[matched] keys[key] with
      | error failure => rfl
      | ok valid =>
        have hleft : (if valid then signatures.drop (matched + 1)
            else signatures[matched] :: signatures.drop (matched + 1)) =
            signatures.drop (if valid then matched + 1 else matched) := by
          cases valid with
          | true => rfl
          | false => exact (List.drop_eq_getElem_cons hlt).symm
        have hm' : (if valid then matched + 1 else matched) ≤ signatures.length := by split <;> omega
        show EStateM.run (if _ then _ else _) s = settled s (((if _ then _ else _) : Except _ _).map _)
        simp only [hleft, List.length_drop]
        generalize (if valid then matched + 1 else matched) = matched' at hm' ⊢
        by_cases hf : keys.length - (key + 1) < signatures.length - matched'
        · have hne : (signatures.drop matched').isEmpty = false := by
            rw [List.isEmpty_eq_false_iff, ne_eq, List.drop_eq_nil_iff]
            omega
          have hsub : signatures.length - (signatures.length - matched') = matched' := by omega
          rw [if_pos hf, if_pos hf]
          show EStateM.Result.ok (matched', false) s =
            .ok (signatures.length - (signatures.drop matched').length, (signatures.drop matched').isEmpty) s
          rw [List.length_drop, hsub, hne]
        · rw [if_neg hf, if_neg hf]
          exact ih matched' (key + 1) hm' hkl (by omega) (by omega)
    · have he : matched = signatures.length := by omega
      rw [if_neg hlt, he, List.drop_length, unmatched]
      rfl

namespace SignatureOp

theorem run_performOne (check : List Bytes → Verdict) (verify : Bool) (s : State) (h : 2 ≤ s.main.length) :
    (performOne check verify).run s =
      settled s ((applyOne check verify s.main).map fun (main, action) => ({ s with main }, action)) := by
  obtain ⟨main, alt, branches, pc, start⟩ := s
  match main, h with
  | key :: signature :: rest, _ =>
    have hs : (top 2).run ⟨key :: signature :: rest, alt, branches, pc, start⟩ = .ok signature _ := run_top rfl
    have hk : (top 1).run ⟨key :: signature :: rest, alt, branches, pc, start⟩ = .ok key _ := run_top rfl
    simp only [performOne, applyOne, EStateM.run_bind, hs, hk]
    cases check [signature] signature key with
    | error failure => rfl
    | ok valid => cases verify <;> cases valid <;> rfl

theorem run_operandCounts (strict : Bool) (s : State) (h : 1 ≤ s.main.length) :
    (operandCounts strict).run s =
      settled s ((ManyOperands.take strict s.main).map fun o => (s, o.keys.length, o.signatures.length)) := by
  obtain ⟨main, alt, branches, pc, start⟩ := s
  match main, h with
  | keyCount :: below, _ =>
    have hn : (topNumber strict 1).run ⟨keyCount :: below, alt, branches, pc, start⟩ =
        (attempt (Number.read keyCount operandLimit strict)).run ⟨keyCount :: below, alt, branches, pc, start⟩ :=
      run_topNumber rfl
    simp only [operandCounts, ManyOperands.take, EStateM.run_bind, hn]
    cases Number.read keyCount operandLimit strict with
    | error failure => rfl
    | ok n =>
      simp only [run_attempt_ok]
      show EStateM.run (if _ then _ else _) _ = settled _ (((if _ then _ else _) : Except _ _).map _)
      by_cases hr : n < 0 ∨ (keyLimit : Int) < n
      · rw [if_pos hr, if_pos hr]
        rfl
      · rw [if_neg hr, if_neg hr]
        simp only [EStateM.run_bind]
        cases hd : below.drop n.toNat with
        | nil =>
          have hl : (keyCount :: below).length < n.toNat + 2 := by
            have := List.drop_eq_nil_iff.1 hd
            simp only [List.length_cons]
            omega
          rw [run_require_lt hl]
          rfl
        | cons signatureCount lower =>
          have hlen : below.length = n.toNat + (lower.length + 1) := by
            have := congrArg List.length hd
            rw [List.length_drop, List.length_cons] at this
            omega
          have hm : (topNumber strict (n.toNat + 2)).run ⟨keyCount :: below, alt, branches, pc, start⟩ =
              (attempt (Number.read signatureCount operandLimit strict)).run
                ⟨keyCount :: below, alt, branches, pc, start⟩ := by
            refine run_topNumber ?_
            rw [List.getElem?_cons_succ, ← List.head?_drop, hd]
            rfl
          rw [run_require (by simp only [List.length_cons]; omega)]
          simp only [hm]
          cases Number.read signatureCount operandLimit strict with
          | error failure => rfl
          | ok m =>
            simp only [run_attempt_ok]
            show EStateM.run (if _ then _ else _) _ = settled _ (((if _ then _ else _) : Except _ _).map _)
            by_cases hr' : m < 0 ∨ n < m
            · rw [if_pos hr', if_pos hr']
              rfl
            · rw [if_neg hr', if_neg hr']
              by_cases hs : lower.length < m.toNat + 1
              · rw [if_pos hs, EStateM.run_bind, run_require_lt (by simp only [List.length_cons]; omega)]
                simp only [List.length_cons]
                rfl
              · have hk : (below.take n.toNat).length = n.toNat := by rw [List.length_take]; omega
                have hg : (lower.take m.toNat).length = m.toNat := by rw [List.length_take]; omega
                rw [if_neg hs, EStateM.run_bind, run_require (by simp only [List.length_cons]; omega)]
                show EStateM.Result.ok (n.toNat, m.toNat) _ =
                  .ok ((below.take n.toNat).length, (lower.take m.toNat).length) _
                rw [hk, hg]

section

variable {strict : Bool} {s : State} {o : ManyOperands}

theorem run_operandCounts_eq_ok (h : ManyOperands.take strict s.main = .ok o) :
    (operandCounts strict).run s = .ok (o.keys.length, o.signatures.length) s := by
  obtain ⟨keyCount, signatureCount, unused, hmain, -⟩ := ManyOperands.take_eq_ok_iff.1 h
  have hpos : 1 ≤ s.main.length := by
    rw [hmain, List.length_cons]
    omega
  rw [run_operandCounts strict s hpos, h]
  rfl

theorem run_topMany_keys (h : ManyOperands.take strict s.main = .ok o) :
    (topMany 2 o.keys.length).run s = .ok o.keys s := by
  obtain ⟨keyCount, signatureCount, unused, hmain, -⟩ := ManyOperands.take_eq_ok_iff.1 h
  have hlen : 1 + o.keys.length ≤ s.main.length := by
    simp only [hmain, List.length_cons, List.length_append]
    omega
  rw [run_topMany hlen, hmain, List.drop_succ_cons, List.drop_zero, List.take_left]

theorem run_topMany_signatures (h : ManyOperands.take strict s.main = .ok o) :
    (topMany (o.keys.length + 3) o.signatures.length).run s = .ok o.signatures s := by
  obtain ⟨keyCount, signatureCount, unused, hmain, -⟩ := ManyOperands.take_eq_ok_iff.1 h
  have hlen : o.keys.length + 2 + o.signatures.length ≤ s.main.length := by
    simp only [hmain, List.length_cons, List.length_append]
    omega
  rw [run_topMany hlen, hmain, List.drop_succ_cons, List.drop_length_add_append, List.drop_succ_cons, List.drop_zero,
    List.take_left]

theorem run_popMany_operands (h : ManyOperands.take strict s.main = .ok o) :
    (popMany (o.keys.length + o.signatures.length + 3)).run s =
      .ok (s.main.take (o.keys.length + o.signatures.length + 3)).reverse { s with main := o.rest } := by
  obtain ⟨keyCount, signatureCount, unused, hmain, -⟩ := ManyOperands.take_eq_ok_iff.1 h
  have hlen : o.keys.length + o.signatures.length + 3 ≤ s.main.length := by
    simp only [hmain, List.length_cons, List.length_append]
    omega
  have hrest : s.main.drop (o.keys.length + o.signatures.length + 3) = o.rest := by
    rw [hmain, List.drop_succ_cons, Nat.add_assoc, List.drop_length_add_append, List.drop_succ_cons,
      List.drop_length_add_append, List.drop_succ_cons, List.drop_zero]
  rw [run_popMany hlen, hrest]

end

/-- the operands are counted before they are read, and taken off only when the verdict is known -/
theorem run_performMany (strict : Bool) (check : List Bytes → Verdict) (verify : Bool) (s : State)
    (h : 1 ≤ s.main.length) :
    (performMany strict (fun signatures signature key => attempt (check signatures signature key)) verify).run s =
      settled s ((applyMany strict check verify s.main).map fun (main, action) => ({ s with main }, action)) := by
  simp only [performMany, applyMany, EStateM.run_bind, liftM_eq, run_operandCounts strict s h]
  cases ht : ManyOperands.take strict s.main with
  | error failure => rfl
  | ok o =>
    obtain ⟨-, -, -, -, -, -, -, hle⟩ := ManyOperands.take_eq_ok_iff.1 ht
    have hm :
        (matchKeys (fun signature key => attempt (check o.signatures signature key)) o.signatures o.keys 0 0).run s =
        settled s ((unmatched (check o.signatures) o.signatures o.keys).map fun left =>
          (s, o.signatures.length - left.length, left.isEmpty)) :=
      run_matchKeys (check o.signatures) o.signatures o.keys 0 0 s (Nat.zero_le _) (Nat.zero_le _) hle
    show _ = settled s ((unmatched (check o.signatures) o.signatures o.keys >>= concludeMany verify o).map _)
    simp only [settled, Except.map, run_topMany_keys ht, run_topMany_signatures ht, hm]
    cases unmatched (check o.signatures) o.signatures o.keys with
    | error failure => rfl
    | ok left =>
      show _ = settled s ((concludeMany verify o left).map _)
      simp only [concludeMany]
      cases verify with
      | false =>
        simp only [Bool.false_eq_true, if_false, EStateM.run_bind, run_popMany_operands ht]
        rfl
      | true =>
        simp only [if_true]
        cases left.isEmpty with
        | false => rfl
        | true =>
          simp only [if_true, EStateM.run_bind, run_popMany_operands ht]
          rfl

theorem run_perform (strict : Bool) (check : List Bytes → Verdict) (op : SignatureOp) (s : State)
    (h : op.depth ≤ s.main.length) :
    (op.perform strict check).run s =
      settled s ((op.apply strict check s.main).map fun (main, action) => ({ s with main }, action)) := by
  cases op with
  | one verify => exact run_performOne check verify s h
  | many verify => exact run_performMany strict check verify s h

end SignatureOp

/-! ## Instructions and operations -/

theorem Instruction.depth_le_of_ready {ctx : Context} {s : State} {instruction : Instruction} (hx : s.executing)
    (h : instruction.ready ctx s = .ok ()) : instruction.depth ≤ s.main.length := by
  simp only [ready, hx, Bool.not_true, Bool.false_eq_true, if_false] at h
  split at h
  · cases h
  · by_cases hlt : s.main.length < instruction.depth
    · rw [Stack.require_eq_error hlt] at h
      cases h
    · omega

/-- an instruction that is looked at and ready leaves and does what its meaning says. One that opens, turns or closes a
block may be so without being executed, and then nothing has been checked before it -/
theorem Instruction.run_perform (ctx : Context) (instruction : Instruction) (s : State)
    (hx : s.executing || instruction.isFlow) (hr : instruction.ready ctx s = .ok ()) :
    (instruction.perform ctx).run s = settled s (instruction.apply ctx s) := by
  by_cases hf : instruction.isFlow
  · cases instruction with
    | flow op => exact op.run_perform s
    | _ => cases hf
  · simp only [hf, Bool.or_false] at hx
    have hd := depth_le_of_ready hx hr
    cases instruction with
    | stack op => exact op.run_perform ctx.strict s hd
    | flow op => cases hf rfl
    | toAlt =>
      obtain ⟨main, alt, branches, pc, start⟩ := s
      match main, hd with
      | item :: rest, _ => rfl
    | fromAlt =>
      obtain ⟨main, alt, branches, pc, start⟩ := s
      cases alt <;> rfl
    | codeSeparator => rfl
    | signature op =>
      simp only [perform, apply]
      cases ctx.spend with
      | none => rfl
      | some spend =>
        rw [run_get_bind]
        exact op.run_perform ctx.strict (ctx.check spend s.codeStart) s hd

/-- the end of an operation, with the state that it leaves -/
def Effect.ended {α : Type} : State × Except Failure α → EStateM.Result Stop State α
  | (s, .ok a) => .ok a s
  | (s, .error failure) => .error (.failure failure) s

theorem Effect.eq_of_ended_ok {α : Type} {r : State × Except Failure α} {s : State} {a : α} (h : ended r = .ok a s) :
    r = (s, .ok a) := by
  obtain ⟨s', failure | a'⟩ := r <;> cases h
  rfl

theorem Effect.eq_of_ended_error {α : Type} {r : State × Except Failure α} {s : State} {failure : Failure}
    (h : ended r = .error (.failure failure) s) : r = (s, .error failure) := by
  obtain ⟨s', failure' | a⟩ := r <;> cases h
  rfl

theorem Effect.ended_ne {α : Type} (r : State × Except Failure α) (s : State) : ended r ≠ .error .outOfRange s := by
  obtain ⟨s', failure | a⟩ := r <;> intro h <;> cases h

theorem Effect.run_checkSize (s : State) (action : Action) :
    (do checkSize; return action : Effect Action).run s = ended (s.sized action) := by
  have hc : checkSize.run s = (attempt s.checkSize).run s := rfl
  simp only [State.sized, EStateM.run_bind, hc]
  cases s.checkSize <;> rfl

theorem Effect.run_within {α : Type} (operation : String) (effect : Effect α) (s : State) :
    (within operation effect).run s =
      match effect.run s with
      | .ok a s' => .ok a s'
      | .error (.failure failure) s' => .error (.failure (.within operation failure)) s'
      | .error .outOfRange s' => .error .outOfRange s' := by
  show EStateM.adaptExcept _ effect s = _
  simp only [EStateM.adaptExcept, EStateM.run]
  cases effect s with
  | ok a s' => rfl
  | error stop s' => cases stop <;> rfl

/-- **Operations in place do what they mean.** An operation carried out in place ends as its meaning says, with the
state that it leaves; it never asks for an item where a stack has none. -/
theorem Operation.run_perform (ctx : Context) (operation : Operation) (s : State) :
    (operation.perform ctx).run s = ended (operation.apply ctx s) := by
  cases operation with
  | push data =>
    simp only [perform, apply, EStateM.run_bind, EStateM.run_get]
    by_cases hx : s.executing
    · rw [if_pos hx, if_pos hx]
      exact run_checkSize (s.pushMain data) (.pushed data)
    · rw [if_neg hx, if_neg hx]
      rfl
  | code op =>
    simp only [perform, apply]
    by_cases hd : op.isDisabled
    · rw [if_pos hd, if_pos hd]
      rfl
    rw [if_neg hd, if_neg hd]
    simp only [EStateM.run_bind, EStateM.run_get]
    cases op.instruction? with
    | none =>
      cases s.executing <;> rfl
    | some instruction =>
      dsimp only
      by_cases hx : !s.executing && !instruction.isFlow
      · rw [if_pos hx, if_pos hx]
        rfl
      rw [if_neg hx, if_neg hx]
      have hlook : s.executing || instruction.isFlow := by
        cases hx' : s.executing <;> cases hf : instruction.isFlow <;> simp_all
      have hready : (do attempt (instruction.ready ctx (← get)) : Effect Unit).run s =
          (attempt (instruction.ready ctx s)).run s := run_get_bind _
      rw [EStateM.run_bind, run_within, hready]
      cases hr : instruction.ready ctx s with
      | error failure => rfl
      | ok _ =>
        simp only [run_attempt_ok, EStateM.run_bind, run_within, instruction.run_perform ctx s hlook hr]
        show _ = ended (op.conclude s (instruction.apply ctx s))
        cases instruction.apply ctx s with
        | error failure => rfl
        | ok r =>
          obtain ⟨s', action⟩ := r
          exact run_checkSize s' action

theorem Operation.run_perform_ne (ctx : Context) (operation : Operation) (s s' : State) :
    (operation.perform ctx).run s ≠ .error .outOfRange s' := by
  rw [run_perform]
  exact ended_ne _ s'

end BitcoinScript
