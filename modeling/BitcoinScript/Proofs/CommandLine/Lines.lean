/-
Texts on one line. What the log of a run tells is put together from fixed words, numbers, hexadecimal digits and the
names of opcodes, none of which has a line end. So each of the two lines that the command prints for a step is one line.

Results:
- `Action.oneLine_text`: what an operation did is told on one line.
- `Session.oneLine_name`: the steps of a run are named after opcodes, on one line.
- `CommandLine.oneLine_stepLines`: the lines of a step of a run are lines.
-/
import Mathlib.Tactic.SplitIfs
import BitcoinScript.CommandLine
import BitcoinScript.Proofs.Session.Reference

namespace BitcoinScript

/-- whether a text has no line end -/
def OneLine (text : String) : Prop :=
  '\n' ∉ text.toList

instance : DecidablePred OneLine :=
  fun text => inferInstanceAs (Decidable ('\n' ∉ text.toList))

namespace OneLine

@[simp] theorem append_iff {a b : String} : OneLine (a ++ b) ↔ OneLine a ∧ OneLine b := by
  simp only [OneLine, String.toList_append, List.mem_append, not_or]

@[simp] theorem toString_iff {text : String} : OneLine (toString text) ↔ OneLine text :=
  Iff.rfl

@[simp] theorem nat (n : Nat) : OneLine n.repr := by
  intro h
  rw [Nat.repr_eq_ofList_toDigits, String.toList_ofList] at h
  exact absurd (Nat.isDigit_of_mem_toDigits (by decide) (by decide) h) (by decide)

@[simp] theorem int : (n : Int) → OneLine n.repr
  | .ofNat n => nat n
  | .negSucc n => append_iff.2 ⟨by decide, nat (n + 1)⟩

@[simp] theorem bool (b : Bool) : OneLine (toString b) := by
  revert b
  decide

theorem intercalate {texts : List String} (h : ∀ text ∈ texts, OneLine text) : OneLine (" ".intercalate texts) := by
  induction texts with
  | nil => decide
  | cons text texts ih =>
    obtain ⟨htext, htexts⟩ := List.forall_mem_cons.1 h
    cases texts with
    | nil =>
      rw [String.intercalate_singleton]
      exact htext
    | cons next texts =>
      rw [String.intercalate_cons_cons]
      exact append_iff.2 ⟨append_iff.2 ⟨htext, by decide⟩, ih htexts⟩

end OneLine

@[simp] theorem Hex.oneLine_encode (bs : Bytes) : OneLine (encode bs) := by
  have hdigits : ∀ n < 16, digit n ≠ '\n' := by decide
  intro h
  rw [encode, String.toList_ofList] at h
  obtain ⟨n, hn, hdigit⟩ := exists_of_mem_digits h
  exact hdigits n hn hdigit.symm

@[simp] theorem Hex.oneLine_shown (bs : Bytes) : OneLine (shown bs) := by
  unfold shown
  split
  · decide
  · exact oneLine_encode bs

@[simp] theorem Opcode.oneLine_name (op : Opcode) : OneLine op.name := by
  have hnames : ∀ name ∈ operationNames, OneLine name := by decide +kernel
  unfold name
  simp only
  split_ifs
  · simp +decide
  · decide
  · decide
  · decide
  · decide
  · decide
  · simp +decide
  · decide
  · split
    · rename_i operation hget
      exact OneLine.append_iff.2 ⟨by decide, hnames operation (List.mem_of_getElem? hget)⟩
    · simp +decide

theorem Opcode.oneLine_leadName (op : Opcode) : OneLine op.leadName := by
  unfold leadName
  split
  · decide
  · exact oneLine_name op

@[simp] theorem Matching.oneLine_text (m : Matching) : OneLine m.text := by
  unfold text
  simp +decide

@[simp] theorem Shuffle.oneLine_text (kind : Shuffle) (item : Bytes) : OneLine (kind.text item) := by
  unfold text
  split <;> simp +decide

/-- what an operation did is told on one line -/
theorem Action.oneLine_text (action : Action) : OneLine action.text := by
  unfold text
  split <;> simp +decide

/-! ## The lines of a step -/

theorem Program.oneLine_name (program : Program) (pc : Nat) : OneLine (program.name pc) := by
  unfold name
  split
  · unfold Chunk.name
    split
    · decide
    · exact Opcode.oneLine_leadName _
  · decide

/-- the steps of a run are named after operations -/
theorem Reference.oneLine_name_run (ctx : Context) (i : Nat) (operations : List Operation) (s : State) :
    ∀ step ∈ (run ctx i operations s).steps, OneLine step.name := by
  induction operations generalizing i s with
  | nil => nofun
  | cons operation operations ih =>
    cases he : execute ctx operation s with
    | mk s' result =>
      cases result with
      | error failure =>
        rw [run_cons_of_error i operations he]
        nofun
      | ok action =>
        rw [run_cons_of_ok i operations he]
        exact List.forall_mem_cons.2 ⟨ctx.program.oneLine_name i, ih (i + 1) s'.advance⟩

theorem Reference.oneLine_name_of (script : Bytes) (spend : Option Spend) (strict : Bool) :
    ∀ step ∈ (Reference.of script spend strict).steps, OneLine step.name := by
  unfold Reference.of
  split
  · nofun
  · exact oneLine_name_run _ 0 _ _

theorem Stack.oneLine_hexText (stack : Stack) : OneLine stack.hexText := by
  refine OneLine.intercalate (List.forall_mem_map.2 fun item _ => ?_)
  simp +decide

namespace CommandLine

theorem oneLine_spaces (n : Nat) : OneLine (String.ofList (List.replicate n ' ')) := by
  intro h
  rw [String.toList_ofList] at h
  exact absurd (List.eq_of_mem_replicate h) (by decide)

/-- the lines of a step with a name on one line are lines -/
theorem oneLine_stepLines {step : Step} (hname : OneLine step.name) : ∀ line ∈ stepLines step, OneLine line := by
  simp +decide [stepLines, alignRight, alignLeft, oneLine_spaces, hname, Action.oneLine_text, Stack.oneLine_hexText]

end CommandLine

end BitcoinScript
