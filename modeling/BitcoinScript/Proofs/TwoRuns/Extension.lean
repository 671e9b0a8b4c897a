/-
Scripts that begin with a script. No operation looks ahead, but for those that check signatures, which read the script
code to its end. So the run of a script that begins with another one, in which no signatures are checked, is the run of
that one, and if that does not fail at an operation, it goes on from where that ends.

Results:
- `Reference.run_extension`: the operations of the first part, run as a script and as a part of one.
- `Reference.of_extension`: the whole fails with the first part, or comes through it to the state it leaves.
- `run_of_extension`: let a script that checks no signatures be followed by more bytes, so that the whole is a script.
  The bytes that follow are then one too, and whatever the spend and the form of numbers, the steps of the run of the
  first part are the first steps of the run of the whole.
  - If the first part fails at one of its operations, the whole has these steps alone, with the same failure and the
    same state.
  - If it comes to its end, with its blocks closed or not, the run of the whole comes to the very state that it leaves,
    and goes on from there with the operations of the second part.
-/
import BitcoinScript.Proofs.Decoding.Concatenation
import BitcoinScript.Proofs.Session.Reach
import BitcoinScript.Proofs.TwoRuns.Comparison

namespace BitcoinScript

/-- a session in the middle of a script, that goes on from a state -/
def Session.resumed (program : Program) (spend : Option Spend) (strict : Bool) (s : State) : Session :=
  ⟨strict, spend, ⟨.ok program, some s, .running s.pc, none⟩⟩

theorem Session.trace_resumed (program : Program) (spend : Option Spend) (strict : Bool) (s : State) :
    (resumed program spend strict s).trace =
      (Reference.run ⟨program, spend, strict⟩ s.pc (program.operations.drop s.pc) s).trace (.ok program) spend strict :=
  (run_to_end (.inl rfl : (resumed program spend strict s).Settled)).2.1

/-- the operations of a script do the same in a script that begins with it, if they check no signatures -/
theorem Reference.run_extension {first second whole : Program} (spend : Option Spend) (strict : Bool)
    (hsecond : second.Consecutive)
    (h : whole.chunks = first.chunks ++ second.chunks.map (Chunk.moved first.bytes.length))
    (hchecks : ∀ operation ∈ first.operations, operation.checksSignatures = false) :
    run ⟨first, spend, strict⟩ 0 first.operations .initial =
      run ⟨whole, spend, strict⟩ 0 first.operations .initial := by
  have hcompare := run_compare (P := fun _ => False) ⟨first, spend, strict⟩ ⟨whole, spend, strict⟩ .initial
    fun k operation t (hop : first.operations[k]? = some operation) hpc => by
      have hlt : t.pc < first.length := by
        obtain ⟨hlt, -⟩ := List.getElem?_eq_some_iff.1 hop
        rw [Program.operations, List.length_map] at hlt
        rw [hpc]
        exact (Nat.zero_add k).symm ▸ hlt
      refine ⟨(Program.name_append_left h hlt).symm, .inl (execute_congr rfl ?_ fun _ => ?_)⟩
      · exact (Program.offset_append_le hsecond h hlt).symm
      · exact hchecks operation (List.mem_of_getElem? hop)
  rcases hcompare with hsame | ⟨-, failure, -, hfalse⟩
  · exact hsame
  · exact hfalse.elim

/-- the runs of a script and of a longer one: both fail at one operation of the first part, or the second comes through
it and goes on from the state it leaves -/
theorem Reference.of_extension {a b : Bytes} {first second whole : Program} (spend : Option Spend) (strict : Bool)
    (ha : Program.decode a = .ok first) (hb : Program.decode b = .ok second)
    (hab : Program.decode (a ++ b) = .ok whole)
    (hchunks : whole.chunks = first.chunks ++ second.chunks.map (Chunk.moved a.length))
    (hchecks : ∀ operation ∈ first.operations, operation.checksSignatures = false) :
    let ctx : Context := ⟨whole, spend, strict⟩
    (∃ steps failure t, steps.length < first.length ∧ failure.kind ≠ .unbalancedIf ∧
        of a spend strict = ⟨steps, .failed failure, some t⟩ ∧
        of (a ++ b) spend strict = ⟨steps, .failed failure, some t⟩) ∨
      ∃ steps t, t.pc = first.length ∧ ctx.reach t.pc = some t ∧
        of a spend strict = ⟨steps, (run ctx t.pc [] t).ending, some t⟩ ∧
        of (a ++ b) spend strict =
          let rest := run ctx t.pc second.operations t
          { rest with steps := steps ++ rest.steps } := by
  intro ctx
  obtain ⟨-, hbytes, -⟩ := Program.of_decode ha
  obtain ⟨hsecond, -, -⟩ := Program.of_decode hb
  rw [← hbytes] at hchunks
  have hops : whole.operations = first.operations ++ second.operations := Program.operations_append hchunks
  have hlength : first.operations.length = first.length := List.length_map _
  -- both runs are runs in the whole, of the operations of the first part, with none and with the others after them
  have hofa : of a spend strict = run ctx 0 (first.operations ++ []) .initial := by
    rw [of, ha, List.append_nil]
    exact run_extension spend strict hsecond hchunks hchecks
  have hofab : of (a ++ b) spend strict = run ctx 0 (first.operations ++ second.operations) .initial := by
    rw [of, hab, ← hops]
  rcases ctx.run_append .initial (hops ▸ List.prefix_append _ _ : first.operations <+: whole.operations) rfl with
    ⟨steps, t, t', operation, failure, hop, -, he, hstop⟩ | ⟨steps, t, -, hpc, hreach, hthrough⟩
  · obtain ⟨hlt, -⟩ := List.getElem?_eq_some_iff.1 hop
    exact .inl ⟨steps, failure, t', hlength ▸ hlt, execute_kind_ne_unbalancedIf he, hofa.trans (hstop []),
      hofab.trans (hstop second.operations)⟩
  · have hend : t.pc = first.length := hpc.trans ((Nat.zero_add _).trans hlength)
    have hlast : run ctx 0 (first.operations ++ []) .initial = ⟨steps ++ [], (run ctx t.pc [] t).ending, some t⟩ :=
      hthrough []
    rw [List.append_nil steps] at hlast
    exact .inr ⟨steps, t, hend, hreach, hofa.trans hlast, hofab.trans (hthrough second.operations)⟩

/-- **A run does not look ahead.** Let a script that checks no signatures begin a longer one. The run of the longer one
begins with the steps of the first, and fails with it if that fails at an operation; else it comes to the very state
that the first one leaves, and goes on from there. -/
theorem run_of_extension (a b : Bytes) (first whole : Program) (spend : Option Spend) (strict : Bool)
    (ha : Program.decode a = .ok first) (hab : Program.decode (a ++ b) = .ok whole)
    (hchecks : ∀ operation ∈ first.operations, operation.checksSignatures = false) :
    let one := (Session.new a spend strict).trace
    let both := (Session.new (a ++ b) spend strict).trace
    ∃ second, Program.decode b = .ok second ∧ whole.operations = first.operations ++ second.operations ∧
      one.2.1 <+: both.2.1 ∧
      (∀ failure, one.2.2 = .failed failure → failure.kind ≠ .unbalancedIf →
        one.2.1.length < first.length ∧ both.2 = one.2 ∧ both.1.run.state? = one.1.run.state?) ∧
      ((∀ failure, one.2.2 = .failed failure → failure.kind = .unbalancedIf) →
        ∃ s, one.1.run.state? = some s ∧ s.pc = first.length ∧
          (⟨whole, spend, strict⟩ : Context).reach first.length = some s ∧
          whole.operations.drop s.pc = second.operations ∧
          let rest := (Session.resumed whole spend strict s).trace
          both = (rest.1, one.2.1 ++ rest.2.1, rest.2.2)) := by
  intro one both
  obtain ⟨second, hb, hchunks⟩ := Program.exists_of_decode_append ha hab
  have hops : whole.operations = first.operations ++ second.operations := Program.operations_append hchunks
  have hone : one = _ := Session.trace_new a spend strict
  have hboth : both = _ := Session.trace_new (a ++ b) spend strict
  refine ⟨second, hb, hops, ?_⟩
  show one.2.1 <+: both.2.1 ∧ _
  rcases Reference.of_extension spend strict ha hb hab hchunks hchecks with
    ⟨steps, failure, t, hlt, hk, hpart, hwhole⟩ | ⟨steps, t, hend, hreach, hpart, hwhole⟩
  · rw [hpart] at hone
    rw [hwhole] at hboth
    rw [hone, hboth]
    exact ⟨List.prefix_refl _, fun _ _ _ => ⟨hlt, rfl, rfl⟩, fun hclosed => absurd (hclosed failure rfl) hk⟩
  · have hdrop : whole.operations.drop t.pc = second.operations := by
      rw [hops, hend, Program.length, ← List.length_map, ← Program.operations, List.drop_left]
    rw [hpart] at hone
    rw [hwhole, hab] at hboth
    rw [hone, hboth]
    refine ⟨List.prefix_append _ _, fun failure hfailed hk => ?_, fun _ => ⟨t, rfl, hend, hend ▸ hreach, hdrop, ?_⟩⟩
    · have hlast : (Reference.run ⟨whole, spend, strict⟩ t.pc [] t).ending = .failed failure := hfailed
      exact absurd (Reference.kind_of_run_nil hlast) hk
    · rw [Session.trace_resumed, hdrop]
      rfl

/-- a block that the second part closes, with a separator in it -/
theorem run_of_extension_block :
    let one := (Session.new [0x51, 0x63, 0xab] none false).trace
    let both := (Session.new [0x51, 0x63, 0xab, 0x68] none false).trace
    one.2.2 = .failed (.unclosedBlocks 1) ∧ one.2.1 <+: both.2.1 ∧
      ∃ program s, one.1.run.state? = some s ∧ s.pc = 3 ∧
        let rest := (Session.resumed program none false s).trace
        both = (rest.1, one.2.1 ++ rest.2.1, rest.2.2) := by
  intro one both
  let first : Program := ⟨[⟨0, [0x51], .code ⟨0x51⟩⟩, ⟨1, [0x63], .code ⟨0x63⟩⟩, ⟨2, [0xab], .code ⟨0xab⟩⟩]⟩
  let whole : Program := ⟨first.chunks ++ [⟨3, [0x68], .code ⟨0x68⟩⟩]⟩
  have ha : Program.decode [0x51, 0x63, 0xab] = .ok first := by decide +kernel
  have hab : Program.decode ([0x51, 0x63, 0xab] ++ [0x68]) = .ok whole := by decide +kernel
  have hchecks : ∀ operation ∈ first.operations, operation.checksSignatures = false := by decide
  have hopen : (Reference.of [0x51, 0x63, 0xab] none false).ending = .failed (.unclosedBlocks 1) := by decide +kernel
  have hending : one.2.2 = .failed (.unclosedBlocks 1) :=
    (congrArg (·.2.2) (Session.trace_new [0x51, 0x63, 0xab] none false)).trans hopen
  obtain ⟨second, -, -, hprefix, -, hgoes⟩ :=
    run_of_extension [0x51, 0x63, 0xab] [0x68] first whole none false ha hab hchecks
  have hkind : ∀ failure, one.2.2 = .failed failure → failure.kind = .unbalancedIf := by
    rw [hending]
    rintro _ ⟨⟩
    rfl
  obtain ⟨s, hs, hpc, -, -, hboth⟩ := hgoes hkind
  exact ⟨hending, hprefix, whole, s, hs, hpc, hboth⟩

end BitcoinScript
