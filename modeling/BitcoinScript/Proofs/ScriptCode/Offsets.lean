/-
Where the operations of a decoded script lie. They stand one after another from the first byte on and leave nothing out,
so the byte where one begins tells its place among the operations.

Results:
- `Program.of_decode`: the operations of a decoded script lie one after another and are made of its bytes.
- `Program.rawOp_eq_raw`: between the offsets of an operation and of the next one are the bytes it was written in.
- `Program.offset_le_offset_iff`, `Program.chunksFrom_eq_filter`: the operations from a byte on are those that begin
  there or later.
-/
import BitcoinScript.Script.ScriptCode

namespace BitcoinScript

/-- the chunks lie one after another from a byte on, and none is empty -/
inductive Chunk.Consecutive : (offset : Nat) → List Chunk → Prop where
  | nil {offset : Nat} : Consecutive offset []
  | cons {offset : Nat} {chunk : Chunk} {chunks : List Chunk} (hoffset : chunk.offset = offset) (hraw : chunk.raw ≠ [])
      (hrest : Consecutive (offset + chunk.raw.length) chunks) : Consecutive offset (chunk :: chunks)

/-! ## Decoding -/

theorem Token.raw_ne_nil (token : Token) : token.raw ≠ [] := by
  cases token <;> exact List.cons_ne_nil _ _

theorem Token.raw_next {op : Opcode} {rest : Bytes} {offset : Nat} {operation : Operation}
    (h : (next op rest).1.operation offset = .ok operation) :
    (next op rest).1.raw ++ (next op rest).2 = op.byte :: rest := by
  generalize hnext : next op rest = step at h ⊢
  unfold next at hnext
  split at hnext
  · subst hnext
    rfl
  · split at hnext <;> subst hnext
    · cases h
    · rename_i hdata
      rw [(Bytes.split?_eq_some_iff.1 hdata).1]
      rfl
  · split at hnext
    · subst hnext
      cases h
    · rename_i hlength
      split at hnext <;> subst hnext
      · cases h
      · rename_i hdata
        rw [(Bytes.split?_eq_some_iff.1 hlength).1, (Bytes.split?_eq_some_iff.1 hdata).1, ← List.append_assoc]
        rfl

/-- the chunks of the tokens of a byte string lie one after another and are made of its bytes -/
theorem Chunk.ofTokens_scan {bs : Bytes} {offset counted : Nat} {chunks : List Chunk}
    (h : ofTokens offset counted (Token.scan bs) = .ok chunks) :
    Consecutive offset chunks ∧ chunks.flatMap Chunk.raw = bs := by
  induction bs using Token.scan.induct generalizing offset counted chunks with
  | case1 =>
    rw [Token.scan] at h
    cases h
    exact ⟨.nil, rfl⟩
  | case2 b bs step =>
    rename_i ih
    rw [Token.scan] at h
    obtain ⟨operation, ho, h⟩ := exists_of_bind_eq_ok h
    simp only at h
    generalize (if operation.isCounted then counted + 1 else counted) = counted' at h
    split at h
    · cases h
    · obtain ⟨later, hl, h⟩ := exists_of_bind_eq_ok h
      cases h
      obtain ⟨hrest, hbytes⟩ := ih hl
      refine ⟨.cons rfl (Token.raw_ne_nil _) hrest, ?_⟩
      rw [List.flatMap_cons, hbytes]
      exact Token.raw_next ho

namespace Program

variable {program : Program}

/-- the operations lie one after another from the first byte on -/
def Consecutive (program : Program) : Prop :=
  Chunk.Consecutive 0 program.chunks

/-- the operations of a decoded script lie one after another, and their bytes are those of the script -/
theorem of_decode {script : Bytes} (h : decode script = .ok program) :
    program.Consecutive ∧ program.bytes = script ∧ script.length ≤ scriptLimit := by
  unfold decode at h
  split at h
  · cases h
  · rename_i hlen
    obtain ⟨chunks, hc, h⟩ := exists_of_map_eq_ok h
    cases h
    obtain ⟨hcons, hbytes⟩ := Chunk.ofTokens_scan hc
    exact ⟨hcons, hbytes, Nat.not_lt.1 hlen⟩

/-! ## Offsets -/

/-- the bytes of an operation, which are those from where it begins to where the next one does -/
def rawOp (program : Program) (pc : Nat) : Bytes :=
  (program.bytes.drop (program.offset pc)).take (program.offset (pc + 1) - program.offset pc)

end Program

namespace Chunk.Consecutive

variable {offset start : Nat} {chunks : List Chunk}

theorem offset_getElem (h : Consecutive offset chunks) {pc : Nat} (hpc : pc < chunks.length) :
    chunks[pc].offset = offset + ((chunks.take pc).flatMap raw).length := by
  induction h generalizing pc with
  | nil => cases hpc
  | @cons offset chunk chunks hoffset _ _ ih =>
    cases pc with
    | zero => exact hoffset
    | succ pc =>
      rw [List.getElem_cons_succ, ih (Nat.lt_of_succ_lt_succ hpc), List.take_succ_cons, List.flatMap_cons,
        List.length_append, Nat.add_assoc]

theorem raw_ne_nil (h : Consecutive offset chunks) {chunk : Chunk} (hm : chunk ∈ chunks) : chunk.raw ≠ [] := by
  induction h with
  | nil => cases hm
  | cons _ hraw _ ih =>
    rcases List.mem_cons.1 hm with rfl | hm
    · exact hraw
    · exact ih hm

theorem le_offset (h : Consecutive offset chunks) {chunk : Chunk} (hm : chunk ∈ chunks) : offset ≤ chunk.offset := by
  induction h with
  | nil => cases hm
  | cons hoffset _ _ ih =>
    rcases List.mem_cons.1 hm with rfl | hm
    · exact Nat.le_of_eq hoffset.symm
    · exact Nat.le_trans (Nat.le_add_right _ _) (ih hm)

theorem dropWhile_eq_filter (h : Consecutive offset chunks) :
    chunks.dropWhile (·.offset < start) = chunks.filter (start ≤ ·.offset) := by
  induction h with
  | nil => rfl
  | @cons offset chunk chunks hoffset hraw hrest ih =>
    by_cases hlt : chunk.offset < start
    · have hnot : ¬ start ≤ chunk.offset := Nat.not_le.2 hlt
      simp only [List.dropWhile_cons, List.filter_cons, hlt, hnot, decide_true, decide_false, Bool.false_eq_true,
        if_true, if_false, ih]
    · have hall : ∀ later ∈ chunk :: chunks, decide (start ≤ later.offset) = true := by
        intro later hm
        have hle : offset ≤ later.offset := (Consecutive.cons hoffset hraw hrest).le_offset hm
        rw [decide_eq_true_eq]
        omega
      rw [List.filter_eq_self.2 hall, List.dropWhile_cons]
      simp only [hlt, decide_false, Bool.false_eq_true, if_false]

end Chunk.Consecutive

namespace Program

variable {program : Program} {chunk : Chunk} {pc : Nat}

theorem offset_length (program : Program) : program.offset program.length = program.bytes.length := by
  have hget : program.chunks[program.length]? = none := List.getElem?_eq_none (Nat.le_refl _)
  rw [offset, hget]

/-- an operation begins where the bytes of those before it end -/
theorem Consecutive.offset_eq (h : program.Consecutive) (pc : Nat) :
    program.offset pc = ((program.chunks.take pc).flatMap Chunk.raw).length := by
  unfold offset
  split
  · rename_i chunk hget
    obtain ⟨hpc, rfl⟩ := List.getElem?_eq_some_iff.1 hget
    rw [Chunk.Consecutive.offset_getElem h hpc, Nat.zero_add]
  · rename_i hget
    rw [bytes, List.take_of_length_le (List.getElem?_eq_none_iff.1 hget)]

theorem Consecutive.offset_succ (h : program.Consecutive) (hget : program.chunks[pc]? = some chunk) :
    program.offset (pc + 1) = program.offset pc + chunk.raw.length := by
  rw [h.offset_eq, h.offset_eq, List.take_add_one, hget, Option.toList_some, List.flatMap_append, List.length_append,
    List.flatMap_singleton]

theorem Consecutive.offset_mono (h : program.Consecutive) {i j : Nat} (hij : i ≤ j) :
    program.offset i ≤ program.offset j := by
  obtain ⟨between, hbetween⟩ := List.take_prefix_take_left (l := program.chunks) hij
  rw [h.offset_eq, h.offset_eq, ← hbetween, List.flatMap_append, List.length_append]
  exact Nat.le_add_right _ _

theorem Consecutive.offset_lt (h : program.Consecutive) {i j : Nat} (hij : i < j) (hi : i < program.length) :
    program.offset i < program.offset j := by
  have hget : program.chunks[i]? = some program.chunks[i] := List.getElem?_eq_getElem hi
  have hraw : program.chunks[i].raw ≠ [] := Chunk.Consecutive.raw_ne_nil h (List.getElem_mem hi)
  calc program.offset i
    _ < program.offset i + program.chunks[i].raw.length := Nat.lt_add_of_pos_right (List.length_pos_iff.2 hraw)
    _ = program.offset (i + 1) := (h.offset_succ hget).symm
    _ ≤ program.offset j := h.offset_mono hij

/-- the offsets tell the order of the operations -/
theorem Consecutive.offset_le_offset_iff (h : program.Consecutive) {i j : Nat} (hj : j < program.length) :
    program.offset i ≤ program.offset j ↔ i ≤ j := by
  constructor
  · intro hle
    rcases Nat.lt_or_ge j i with hlt | hge
    · exact absurd (h.offset_lt hlt hj) (Nat.not_lt.2 hle)
    · exact hge
  · exact h.offset_mono

theorem Consecutive.rawOp_eq_raw (h : program.Consecutive) (hget : program.chunks[pc]? = some chunk) :
    program.rawOp pc = chunk.raw := by
  obtain ⟨hpc, rfl⟩ := List.getElem?_eq_some_iff.1 hget
  have hbytes : program.bytes = (program.chunks.take pc).flatMap Chunk.raw ++
      (program.chunks[pc].raw ++ (program.chunks.drop (pc + 1)).flatMap Chunk.raw) := by
    rw [← List.flatMap_cons, ← List.drop_eq_getElem_cons hpc, ← List.flatMap_append, List.take_append_drop, bytes]
  rw [rawOp, h.offset_succ hget, Nat.add_sub_cancel_left, hbytes, h.offset_eq, List.drop_left, List.take_left]

/-- the operations from a byte on are those that begin there or later -/
theorem Consecutive.chunksFrom_eq_filter (h : program.Consecutive) (start : Nat) :
    program.chunksFrom start = program.chunks.filter (start ≤ ·.offset) :=
  Chunk.Consecutive.dropWhile_eq_filter h

end Program

end BitcoinScript
