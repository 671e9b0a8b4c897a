/-
What blocks mean. A block tests the top item and does one of its two parts, on the stacks alone; this is the meaning of
operations with their blocks closed, by recursion on them and without a record of open blocks. The machine, which walks
through all operations and keeps such a record, comes to the same.

Results:
- `Body.means`: where operations with their blocks closed are executed, driving the machine over them comes to their
  meaning and leaves the open blocks as they were.
- `conditional_selects`: so driving it over a block is as driving it over the part that the top item selects.
-/
import BitcoinScript.Proofs.Conditional.Body

namespace BitcoinScript

/-! ## Meaning -/

/-- the number of items on the two stacks together -/
def Stacks.items (p : Stacks) : Nat :=
  p.main.length + p.alt.length

/-- the stacks at the end, and a failure if there is one -/
abbrev Stacks.End := Stacks × Except Failure Unit

/-- the end of what changes nothing -/
def Stacks.pass (p : Stacks) : Stacks.End :=
  (p, .ok ())

/-- goes on if there is no failure -/
def Stacks.End.andThen (e : Stacks.End) (f : Stacks → Stacks.End) : Stacks.End :=
  match e with
  | (p, .ok ()) => f p
  | (p, .error failure) => (p, .error failure)

@[simp] theorem Stacks.End.andThen_pass (e : Stacks.End) : e.andThen Stacks.pass = e := by
  obtain ⟨p, failure | u⟩ := e <;> rfl

/-- an operation on the stacks alone -/
def Operation.eval (ctx : Context) (operation : Operation) (p : Stacks) : Stacks.End :=
  let (s, result) := execute ctx operation (State.initial.withStacks p)
  (s.stacks, result.map fun _ => ())

/-- tests the top item, and goes on with whether the first part of a block is taken -/
def Stacks.test (negated : Bool) (p : Stacks) (f : Bool → Stacks → Stacks.End) : Stacks.End :=
  match p.main with
  | [] => (p, .error (.within (Opcode.opener negated).name (.tooFewItems 1 0)))
  | item :: main => f (Number.isTrue item != negated) ⟨main, p.alt⟩

/-- operations with their blocks closed on the stacks alone -/
def Body.eval (ctx : Context) : Body → Stacks → Stacks.End
  | .empty, p => p.pass
  | .plain operation _ rest, p => (operation.eval ctx p).andThen (rest.eval ctx)
  | .when negated first rest, p =>
    (p.test negated fun taken p => if taken then first.eval ctx p else p.pass).andThen (rest.eval ctx)
  | .choose negated first second rest, p =>
    (p.test negated fun taken p => if taken then first.eval ctx p else second.eval ctx p).andThen (rest.eval ctx)

/-! ## Driving -/

/-- where the machine is after operations that leave `p` and `branches` -/
def State.after (s : State) (operations : List Operation) (p : Stacks) (branches : Branches) : State :=
  { s.withStacks p with branches, pc := s.pc + operations.length }

/-- driving the machine over the operations comes to an end with these stacks. A success leaves `branches` open and the
stacks within their limit -/
inductive Leads (ctx : Context) (operations : List Operation) (s : State) (branches : Branches) :
    Stacks.End → Prop where
  | ok (p : Stacks) (actions : List Action) (hp : p.items ≤ stackLimit)
      (h : drive ctx operations s = (s.after operations p branches, .ok actions)) :
      Leads ctx operations s branches (p, .ok ())
  | error {p : Stacks} (s' : State) (failure : Failure) (hp : s'.stacks = p)
      (h : drive ctx operations s = (s', .error failure)) : Leads ctx operations s branches (p, .error failure)

/-- the operations mean `f` on the stacks, and lead from the open blocks `before` to the open blocks `after` -/
def Means (ctx : Context) (operations : List Operation) (before after : Branches) (f : Stacks → Stacks.End) : Prop :=
  ∀ s : State, s.branches = before → s.items ≤ stackLimit → Leads ctx operations s after (f s.stacks)

section

variable {ctx : Context} {operations more : List Operation} {before between after : Branches}

theorem Means.nil : Means ctx [] before before Stacks.pass := by
  intro s hb hs
  subst hb
  exact .ok s.stacks [] hs rfl

theorem Means.append {f g : Stacks → Stacks.End} (hf : Means ctx operations before between f)
    (hg : Means ctx more between after g) :
    Means ctx (operations ++ more) before after fun p => (f p).andThen g := by
  intro s hb hs
  have h : Leads ctx operations s between (f s.stacks) := hf s hb hs
  show Leads ctx (operations ++ more) s after ((f s.stacks).andThen g)
  generalize f s.stacks = e at h ⊢
  cases h with
  | error s' failure hp hd =>
    refine .error s' failure hp ?_
    rw [drive_append, hd]
  | ok p actions hp hd =>
    have h' : Leads ctx more (s.after operations p between) after (g p) := hg _ rfl hp
    show Leads ctx (operations ++ more) s after (g p)
    generalize g p = e' at h' ⊢
    cases h' with
    | error s' failure hp' hd' =>
      refine .error s' failure hp' ?_
      rw [drive_append, hd]
      simp only [hd']
      rfl
    | ok p' actions' hp' hd' =>
      have hafter : (s.after operations p between).after more p' after = s.after (operations ++ more) p' after := by
        simp only [State.after, State.withStacks, List.length_append, Nat.add_assoc]
      refine .ok p' (actions ++ actions') hp' ?_
      rw [drive_append, hd, ← hafter]
      simp only [hd']
      rfl

theorem Means.append_pass {f : Stacks → Stacks.End} (hf : Means ctx operations before between f)
    (hp : Means ctx more between after Stacks.pass) : Means ctx (operations ++ more) before after f := by
  have h := hf.append hp
  simp only [Stacks.End.andThen_pass] at h
  exact h

theorem Means.pass_append {f : Stacks → Stacks.End} (hp : Means ctx operations before between Stacks.pass)
    (hf : Means ctx more between after f) : Means ctx (operations ++ more) before after f :=
  hp.append hf

theorem Means.single {operation : Operation}
    (h : ∀ s : State, s.branches = before → s.items ≤ stackLimit →
      ∃ action, execute ctx operation s = ({ s with branches := after }, .ok action)) :
    Means ctx [operation] before after Stacks.pass := by
  intro s hb hs
  obtain ⟨action, he⟩ := h s hb hs
  refine .ok s.stacks [action] hs ?_
  rw [drive, he]
  rfl

theorem Means.turner (h : before.turn? = some after) : Means ctx [.code .turner] before after Stacks.pass :=
  .single fun _ hb hs => execute_turner hs (hb ▸ h)

theorem Means.closer (h : before.pop? = some after) : Means ctx [.code .closer] before after Stacks.pass :=
  .single fun _ hb hs => execute_closer hs (hb ▸ h)

theorem Means.opener_skipped {negated : Bool} (h : before.allTaken = false) :
    Means ctx [.code (.opener negated)] before (before.push false) Stacks.pass := by
  refine .single fun s hb hs => ?_
  subst hb
  exact execute_opener_skipped h hs

theorem Means.skipped {operation : Operation} (hp : operation.isPlain) (hm : operation.isMovable)
    (h : before.allTaken = false) : Means ctx [operation] before before Stacks.pass := by
  refine .single fun s hb _ => ?_
  subst hb
  exact execute_skipped h hp hm

theorem Means.plain {operation : Operation} (hp : operation.isPlain) (hm : operation.isMovable) (h : before.allTaken) :
    Means ctx [operation] before before (operation.eval ctx) := by
  intro s hb hs
  subst hb
  let t : State := State.initial.withStacks s.stacks
  have ht : t.executing := rfl
  obtain ⟨p, result, he, he'⟩ : ∃ p result, execute ctx operation s = (s.withStacks p, result) ∧
      execute ctx operation t = (t.withStacks p, result) := execute_plain hp hm h ht rfl
  have heval : operation.eval ctx s.stacks = (p, result.map fun _ => ()) := by
    rw [Operation.eval, he']
    rfl
  rw [heval]
  cases result with
  | error failure => exact .error (s.withStacks p) failure rfl (by rw [drive, he])
  | ok action =>
    have hp' : p.items ≤ stackLimit := execute_items_le hs he
    refine .ok p [action] hp' ?_
    rw [drive, he]
    rfl

/-- a block does one of the things that its parts may mean -/
theorem Means.block {negated : Bool} {inner : List Operation} {f : Bool → Stacks → Stacks.End}
    (inside : Bool → Branches) (h : before.allTaken)
    (hf : ∀ taken, Means ctx inner (before.push taken) (inside taken) (f taken))
    (hpop : ∀ taken, (inside taken).pop? = some before) :
    Means ctx (.code (.opener negated) :: (inner ++ [.code .closer])) before before fun p => p.test negated f := by
  intro s hb hs
  subst hb
  cases hm : s.main with
  | nil =>
    have htest : s.stacks.test negated f =
        (s.stacks, .error (.within (Opcode.opener negated).name (.tooFewItems 1 0))) := by
      simp only [Stacks.test, State.stacks, hm]
    show Leads ctx _ s _ (s.stacks.test negated f)
    rw [htest]
    refine .error s _ rfl ?_
    rw [drive, execute_opener_empty h hm]
  | cons item rest =>
    let taken := Number.isTrue item != negated
    let s₁ : State := { s with main := rest, branches := s.branches.push taken }
    obtain ⟨action, he⟩ : ∃ action, execute ctx (.code (.opener negated)) s = (s₁, .ok action) :=
      execute_opener h hs hm
    have hs₁ : s₁.advance.items ≤ stackLimit := by
      have hlen : s.items = s₁.advance.items + 1 := by
        simp only [State.items, s₁, State.advance, hm, List.length_cons]
        omega
      omega
    have hinner : Leads ctx (inner ++ [.code .closer]) s₁.advance s.branches
        ((f taken ⟨rest, s.alt⟩).andThen Stacks.pass) :=
      ((hf taken).append (.closer (hpop taken))) s₁.advance rfl hs₁
    have htest : s.stacks.test negated f = f taken ⟨rest, s.alt⟩ := by
      simp only [Stacks.test, State.stacks, hm, taken]
    show Leads ctx _ s _ (s.stacks.test negated f)
    rw [htest]
    rw [Stacks.End.andThen_pass] at hinner
    generalize f taken ⟨rest, s.alt⟩ = e at hinner ⊢
    cases hinner with
    | error s' failure hp hd =>
      refine .error s' failure hp ?_
      rw [drive, he]
      simp only [hd]
      rfl
    | ok p actions hp hd =>
      have hafter : s₁.advance.after (inner ++ [.code .closer]) p s.branches =
          s.after (.code (.opener negated) :: (inner ++ [.code .closer])) p s.branches := by
        simp only [State.after, State.withStacks, s₁, State.advance, List.length_cons, Nat.add_assoc, Nat.add_comm 1]
      refine .ok p (action :: actions) hp ?_
      rw [drive, he, ← hafter]
      simp only [hd]
      rfl

end

/-! ## Operations with their blocks closed -/

/-- all operations may be skipped, and do not depend on their place in the script -/
def Body.Movable (body : Body) : Prop :=
  ∀ operation ∈ body.operations, operation.isMovable

namespace Body

variable {ctx : Context} {operation : Operation} {negated : Bool} {first second rest : Body}

theorem Movable.plain {h : operation.isPlain} (hm : (plain operation h rest).Movable) :
    operation.isMovable ∧ rest.Movable :=
  List.forall_mem_cons.1 hm

theorem Movable.when (hm : (when negated first rest).Movable) : first.Movable ∧ rest.Movable := by
  obtain ⟨-, hm⟩ := List.forall_mem_cons.1 hm
  obtain ⟨hfirst, hm⟩ := List.forall_mem_append.1 hm
  exact ⟨hfirst, (List.forall_mem_cons.1 hm).2⟩

theorem Movable.choose (hm : (choose negated first second rest).Movable) :
    first.Movable ∧ second.Movable ∧ rest.Movable := by
  obtain ⟨-, hm⟩ := List.forall_mem_cons.1 hm
  obtain ⟨hfirst, hm⟩ := List.forall_mem_append.1 hm
  obtain ⟨hsecond, hm⟩ := List.forall_mem_append.1 (List.forall_mem_cons.1 hm).2
  exact ⟨hfirst, hsecond, (List.forall_mem_cons.1 hm).2⟩

end Body

theorem Branches.pop?_skipped {block : Block} {blocks : List Block} {k : Nat} (hk : k < blocks.length) :
    Branches.pop? ⟨block :: blocks, some k⟩ = some ⟨blocks, some k⟩ := by
  have hne : ¬ some k = some blocks.length := by
    rw [Option.some.injEq]
    omega
  simp only [pop?, if_neg hne]

theorem Branches.turn?_skipped {taken : Bool} {blocks : List Block} {k : Nat} (hk : k < blocks.length) :
    Branches.turn? ⟨⟨taken, false⟩ :: blocks, some k⟩ = some ⟨⟨!taken, true⟩ :: blocks, some k⟩ := by
  have hne : ¬ k = blocks.length := by omega
  simp only [turn?, Bool.false_eq_true, if_false, if_neg hne]

theorem Branches.pop?_taken {block : Block} {blocks : List Block} (skipped : Bool) :
    Branches.pop? ⟨block :: blocks, if skipped then some blocks.length else .none⟩ = some ⟨blocks, .none⟩ := by
  cases skipped with
  | true => simp only [pop?, if_true]
  | false => rfl

namespace Body

variable {ctx : Context}

/-- inside a block that is not taken, operations with their blocks closed are passed over. The induction is on the
operations; what carries it is that the outermost block that is not taken lies outside of all their blocks, so that none
of these can end the skipping -/
theorem means_skipped (body : Body) (hm : body.Movable) {blocks : List Block} {k : Nat} (hk : k < blocks.length) :
    Means ctx body.operations ⟨blocks, some k⟩ ⟨blocks, some k⟩ Stacks.pass := by
  induction body generalizing blocks with
  | empty => exact .nil
  | plain operation h rest ih =>
    obtain ⟨hop, hrest⟩ := hm.plain
    exact (Means.skipped h hop rfl).pass_append (ih hrest hk)
  | when negated first rest ihFirst ihRest =>
    obtain ⟨hfirst, hrest⟩ := hm.when
    have hk' : k < (⟨false, false⟩ :: blocks).length := Nat.lt_succ_of_lt hk
    exact (Means.opener_skipped rfl).pass_append
      ((ihFirst hfirst hk').pass_append ((Means.closer (Branches.pop?_skipped hk)).pass_append (ihRest hrest hk)))
  | choose negated first second rest ihFirst ihSecond ihRest =>
    obtain ⟨hfirst, hsecond, hrest⟩ := hm.choose
    have hk' : k < (⟨false, false⟩ :: blocks).length := Nat.lt_succ_of_lt hk
    have hk'' : k < (⟨true, true⟩ :: blocks).length := Nat.lt_succ_of_lt hk
    exact (Means.opener_skipped rfl).pass_append
      ((ihFirst hfirst hk').pass_append
        ((Means.turner (Branches.turn?_skipped hk)).pass_append
          ((ihSecond hsecond hk'').pass_append
            ((Means.closer (Branches.pop?_skipped hk)).pass_append (ihRest hrest hk)))))

theorem means_when {first : Body} (negated : Bool) (blocks : List Block) (hm : first.Movable)
    (hfirst : ∀ blocks, Means ctx first.operations ⟨blocks, none⟩ ⟨blocks, none⟩ (first.eval ctx)) :
    Means ctx (.code (.opener negated) :: (first.operations ++ [.code .closer])) ⟨blocks, none⟩ ⟨blocks, none⟩
      fun p => p.test negated fun taken p => if taken then first.eval ctx p else p.pass := by
  refine .block (fun taken => ⟨⟨taken, false⟩ :: blocks, if !taken then some blocks.length else none⟩) rfl ?_
    fun taken => Branches.pop?_taken !taken
  intro taken
  cases taken with
  | true => exact hfirst _
  | false => exact first.means_skipped hm (Nat.lt_succ_self _)

theorem means_choose {first second : Body} (negated : Bool) (blocks : List Block) (hm : first.Movable)
    (hm' : second.Movable)
    (hfirst : ∀ blocks, Means ctx first.operations ⟨blocks, none⟩ ⟨blocks, none⟩ (first.eval ctx))
    (hsecond : ∀ blocks, Means ctx second.operations ⟨blocks, none⟩ ⟨blocks, none⟩ (second.eval ctx)) :
    Means ctx (.code (.opener negated) :: ((first.operations ++ .code .turner :: second.operations) ++ [.code .closer]))
      ⟨blocks, none⟩ ⟨blocks, none⟩
      fun p => p.test negated fun taken p => if taken then first.eval ctx p else second.eval ctx p := by
  refine .block (fun taken => ⟨⟨!taken, true⟩ :: blocks, if taken then some blocks.length else none⟩) rfl ?_
    fun taken => Branches.pop?_taken taken
  intro taken
  cases taken with
  | true =>
    have hskip : Means ctx second.operations ⟨⟨false, true⟩ :: blocks, some blocks.length⟩
        ⟨⟨false, true⟩ :: blocks, some blocks.length⟩ Stacks.pass := second.means_skipped hm' (Nat.lt_succ_self _)
    exact (hfirst _).append_pass ((Means.turner rfl).pass_append hskip)
  | false =>
    have hskip : Means ctx first.operations ⟨⟨false, false⟩ :: blocks, some blocks.length⟩
        ⟨⟨false, false⟩ :: blocks, some blocks.length⟩ Stacks.pass := first.means_skipped hm (Nat.lt_succ_self _)
    have hturn : Branches.turn? ⟨⟨false, false⟩ :: blocks, some blocks.length⟩ =
        some ⟨⟨true, true⟩ :: blocks, none⟩ := by
      simp only [Branches.turn?, Bool.false_eq_true, if_false, if_true, Bool.not_false]
    exact hskip.pass_append ((Means.turner hturn).pass_append (hsecond _))

/-- where operations with their blocks closed are executed, driving the machine over them does what they mean, and the
open blocks are those there were before. The induction is on the operations -/
theorem means (body : Body) (hm : body.Movable) (blocks : List Block) :
    Means ctx body.operations ⟨blocks, none⟩ ⟨blocks, none⟩ (body.eval ctx) := by
  induction body generalizing blocks with
  | empty => exact .nil
  | plain operation h rest ih =>
    obtain ⟨hop, hrest⟩ := hm.plain
    exact (Means.plain h hop rfl).append (ih hrest blocks)
  | when negated first rest ihFirst ihRest =>
    obtain ⟨hfirst, hrest⟩ := hm.when
    have hsplit : (when negated first rest).operations =
        (.code (.opener negated) :: (first.operations ++ [.code .closer])) ++ rest.operations := by
      simp only [operations, List.cons_append, List.append_assoc, List.nil_append]
    rw [hsplit]
    exact (means_when negated blocks hfirst (ihFirst hfirst)).append (ihRest hrest blocks)
  | choose negated first second rest ihFirst ihSecond ihRest =>
    obtain ⟨hfirst, hsecond, hrest⟩ := hm.choose
    have hsplit : (choose negated first second rest).operations =
        (.code (.opener negated) :: ((first.operations ++ .code .turner :: second.operations) ++ [.code .closer])) ++
          rest.operations := by
      simp only [operations, List.cons_append, List.append_assoc, List.nil_append]
    rw [hsplit]
    exact (means_choose negated blocks hfirst hsecond (ihFirst hfirst) (ihSecond hsecond)).append (ihRest hrest blocks)

/-- a block, with its second part if it has one, and nothing after it -/
def block (negated : Bool) (first : Body) : (second? : Option Body) → Body
  | none => when negated first empty
  | some second => choose negated first second empty

/-- the part that an item selects; a second part that is missing is empty -/
def selected (negated : Bool) (first : Body) (second? : Option Body) (item : Bytes) : Body :=
  if Number.isTrue item != negated then first else second?.getD empty

theorem Movable.block (hfirst : first.Movable) {second? : Option Body} (hsecond : ∀ second ∈ second?, second.Movable) :
    (block negated first second?).Movable := by
  have hopener : (Operation.code (.opener negated)).isMovable := by cases negated <;> rfl
  have hcloser : ∀ operation ∈ [Operation.code .closer], operation.isMovable := List.forall_mem_singleton.2 rfl
  cases second? with
  | none => exact List.forall_mem_cons.2 ⟨hopener, List.forall_mem_append.2 ⟨hfirst, hcloser⟩⟩
  | some second =>
    have hparts : ∀ operation ∈ Operation.code .turner :: (second.operations ++ [.code .closer]), operation.isMovable :=
      List.forall_mem_cons.2 ⟨rfl, List.forall_mem_append.2 ⟨hsecond second rfl, hcloser⟩⟩
    exact List.forall_mem_cons.2 ⟨hopener, List.forall_mem_append.2 ⟨hfirst, hparts⟩⟩

/-- a block means what the part means that the top item selects -/
theorem eval_block (negated : Bool) (first : Body) (second? : Option Body) {p : Stacks} {item : Bytes} {main : Stack}
    (h : p.main = item :: main) :
    (block negated first second?).eval ctx p = (selected negated first second? item).eval ctx ⟨main, p.alt⟩ := by
  cases second? with
  | none =>
    simp only [block, eval, Stacks.test, h, selected, Option.getD_none, Stacks.End.andThen_pass]
    split <;> rfl
  | some second =>
    simp only [block, eval, Stacks.test, h, selected, Option.getD_some, Stacks.End.andThen_pass]
    split <;> rfl

end Body

theorem Leads.agree {ctx : Context} {operations others : List Operation} {s t : State} {branches : Branches}
    {e : Stacks.End} (h : Leads ctx operations s branches e) (h' : Leads ctx others t branches e) :
    let one := drive ctx operations s
    let other := drive ctx others t
    (one.2.isOk ↔ other.2.isOk) ∧ one.1.main = other.1.main ∧ one.1.alt = other.1.alt ∧
      (other.2.isOk → one.1.branches = other.1.branches) ∧
      ∀ failure, other.2 = .error failure → one.2 = .error failure := by
  intro one other
  cases h with
  | ok p actions hp hd =>
    have hone : one = (s.after operations p branches, .ok actions) := hd
    cases h' with
    | ok _ actions' hp' hd' =>
      have hother : other = (t.after others p branches, .ok actions') := hd'
      rw [hone, hother]
      exact ⟨Iff.rfl, rfl, rfl, fun _ => rfl, fun failure hf => by cases hf⟩
  | error s' failure hp hd =>
    have hone : one = (s', .error failure) := hd
    cases h' with
    | error t' _ hp' hd' =>
      have hother : other = (t', .error failure) := hd'
      have hstacks : s'.stacks = t'.stacks := hp.trans hp'.symm
      rw [hone, hother]
      refine ⟨Iff.rfl, congrArg Stacks.main hstacks, congrArg Stacks.alt hstacks, fun hn => ?_, fun _ hf => hf⟩
      cases hn

/-- **A block does what the selected part does.** Let the parts be operations with their blocks closed, nested to any
depth, none of them disabled, a code separator or about signatures. Driving the machine over a block succeeds if and
only if driving it over the part alone that the top item selects does, with that item gone. Both leave the same two
stacks, whether they succeed or fail, after a success the same open blocks, and a failure is the same. -/
theorem conditional_selects (ctx : Context) (negated : Bool) (first : Body) (second? : Option Body) (s : State)
    (item : Bytes) (rest : Stack) (hfirst : first.Movable) (hsecond : ∀ second ∈ second?, second.Movable)
    (hx : s.executing) (hs : s.items ≤ stackLimit) (hm : s.main = item :: rest) :
    let whole := drive ctx (Body.block negated first second?).operations s
    let alone := drive ctx (Body.selected negated first second? item).operations { s with main := rest }
    (whole.2.isOk ↔ alone.2.isOk) ∧ whole.1.main = alone.1.main ∧ whole.1.alt = alone.1.alt ∧
      (alone.2.isOk → whole.1.branches = alone.1.branches) ∧
      ∀ failure, alone.2 = .error failure → whole.2 = .error failure := by
  let block := Body.block negated first second?
  let part := Body.selected negated first second? item
  obtain ⟨blocks, hbranches⟩ : ∃ blocks, s.branches = ⟨blocks, none⟩ :=
    ⟨s.branches.blocks, by rw [← Option.isNone_iff_eq_none.1 hx]⟩
  have hpart : part.Movable := by
    show Body.Movable (if _ then _ else _)
    split
    · exact hfirst
    · cases second? with
      | none => exact List.forall_mem_nil _
      | some second => exact hsecond second rfl
  have hrest : State.items { s with main := rest } ≤ stackLimit := by
    simp only [State.items, hm, List.length_cons] at hs ⊢
    omega
  have hwhole : Leads ctx block.operations s ⟨blocks, none⟩ (block.eval ctx s.stacks) :=
    block.means (.block hfirst hsecond) blocks s hbranches hs
  have halone : Leads ctx part.operations { s with main := rest } ⟨blocks, none⟩ (part.eval ctx ⟨rest, s.alt⟩) :=
    part.means hpart blocks _ hbranches hrest
  rw [Body.eval_block negated first second? hm] at hwhole
  exact hwhole.agree halone

/-- a true item selects the first part, a push of one, and not the second, a push of two -/
theorem conditional_selects_first :
    let one := Body.plain (.code ⟨0x51⟩) rfl .empty
    let two := Body.plain (.code ⟨0x52⟩) rfl .empty
    let s : State := ⟨[[1], [7]], [], .none, 0, 0⟩
    (drive ⟨⟨[]⟩, none, false⟩ (Body.block false one (some two)).operations s).1.main =
      (drive ⟨⟨[]⟩, none, false⟩ one.operations { s with main := [[7]] }).1.main := by
  intro one two s
  have hone : one.Movable := List.forall_mem_singleton.2 rfl
  have htwo : ∀ second ∈ some two, second.Movable := by
    rintro second ⟨⟩
    exact List.forall_mem_singleton.2 rfl
  exact (conditional_selects ⟨⟨[]⟩, none, false⟩ false one (some two) s [1] [[7]] hone htwo rfl (by decide) rfl).2.1

end BitcoinScript
