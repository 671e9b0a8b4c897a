/-
Which byte strings are scripts, and what is said of the others. A decoded script is a row of whole operations within
the limits. Any other byte string that is not too long begins with such a row and goes on with the first operation that
breaks it, and that one decides the failure, whatever comes after it.

Results:
- `Piece.eq_of_bytes_eq`: a byte string is a row of whole operations in at most one way.
- `Chunk.ofTokens_pieces`: decoding goes through whole operations within the limits, one after another.
- `FirstFault.ofTokens_eq`: it ends at the first operation that breaks the row.
- `pieces_or_fault`: every byte string is a row of whole operations, or has such a first operation.
- `Program.decodes_iff`: the limits in numbers.
- `decode_by_grammar`: so these two decide what decoding gives. A byte string that is too long fails for its length
  alone. Any other that is no script fails for the first operation that breaks the row: a cut push, or else a push that
  is too long, at the byte where it begins, or one counted operation too many.
-/
import Mathlib.Data.List.Flatten
import BitcoinScript.Proofs.Decoding.Grammar

namespace BitcoinScript

/-- an operation with the bytes it is written in -/
structure Piece where
  operation : Operation
  raw : Bytes
  written : operation.WrittenAs raw

namespace Piece

/-- the bytes of a row of operations -/
def bytes (pieces : List Piece) : Bytes :=
  pieces.flatMap raw

/-- how many of the operations count towards the limit -/
def counted (pieces : List Piece) : Nat :=
  pieces.countP (·.operation.isCounted)

/-- no push is too long, and not too many operations count -/
structure Fit (pieces : List Piece) : Prop where
  pushes : ∀ piece ∈ pieces, ∀ data, piece.operation = .push data → data.length ≤ itemLimit
  operations : counted pieces ≤ operationLimit

/-- the operations in their places, the first of them at `offset` -/
def layOut : (offset : Nat) → List Piece → List Chunk
  | _, [] => []
  | offset, piece :: pieces => ⟨offset, piece.raw, piece.operation⟩ :: layOut (offset + piece.raw.length) pieces

variable {piece : Piece} {pieces more : List Piece}

@[simp] theorem bytes_cons : bytes (piece :: pieces) = piece.raw ++ bytes pieces :=
  List.flatMap_cons

@[simp] theorem bytes_append : bytes (pieces ++ more) = bytes pieces ++ bytes more :=
  List.flatMap_append

theorem counted_cons : counted (piece :: pieces) = counted pieces + if piece.operation.isCounted then 1 else 0 :=
  List.countP_cons

theorem counted_singleton : counted [piece] = if piece.operation.isCounted then 1 else 0 := by
  rw [counted_cons]
  exact Nat.zero_add _

@[simp] theorem counted_append : counted (pieces ++ more) = counted pieces + counted more :=
  List.countP_append

theorem one_le_operationLimit : 1 ≤ operationLimit := by
  decide

theorem Fit.nil : Fit [] :=
  ⟨nofun, Nat.zero_le _⟩

theorem Fit.append (h : Fit pieces) (hmore : Fit more) (hcounted : counted pieces + counted more ≤ operationLimit) :
    Fit (pieces ++ more) := by
  refine ⟨?_, ?_⟩
  · intro piece hmem
    rcases List.mem_append.1 hmem with hmem | hmem
    · exact h.pushes piece hmem
    · exact hmore.pushes piece hmem
  · rw [counted_append]
    exact hcounted

theorem Fit.sublist (h : Fit pieces) (hmore : more.Sublist pieces) : Fit more where
  pushes piece hmem := h.pushes piece (hmore.subset hmem)
  operations := Nat.le_trans hmore.countP_le h.operations

theorem Fit.of_append_right (h : Fit (pieces ++ more)) : Fit more :=
  h.sublist (List.sublist_append_right pieces more)

theorem Fit.of_mem (h : Fit pieces) (hmem : piece ∈ pieces) : Fit [piece] :=
  h.sublist (List.singleton_sublist.2 hmem)

theorem length_bytes_le (h : more.Sublist pieces) : (bytes more).length ≤ (bytes pieces).length :=
  (h.flatMap raw).length_le

theorem length_raw_le (h : piece ∈ pieces) : piece.raw.length ≤ (bytes pieces).length := by
  have hle : (bytes [piece]).length ≤ (bytes pieces).length := length_bytes_le (List.singleton_sublist.2 h)
  rwa [bytes_cons, bytes, List.flatMap_nil, List.append_nil] at hle

/-- a byte string is a row of whole operations in at most one way -/
theorem eq_of_bytes_eq (h : bytes pieces = bytes more) : pieces = more := by
  have hne : ∀ (piece : Piece) (rest : Bytes), piece.raw ++ rest ≠ [] := fun piece rest hnil =>
    piece.written.raw_ne_nil (List.append_eq_nil_iff.1 hnil).1
  induction pieces generalizing more with
  | nil =>
    cases more with
    | nil => rfl
    | cons piece more => exact absurd (bytes_cons.symm.trans h.symm) (hne piece _)
  | cons piece pieces ih =>
    cases more with
    | nil => exact absurd (bytes_cons.symm.trans h) (hne piece _)
    | cons piece' more =>
      rw [bytes_cons, bytes_cons] at h
      -- the scan takes the same token off the front of both
      obtain ⟨token, hwhole, hraw, hscan⟩ := Token.scan_written piece.written
      obtain ⟨token', hwhole', hraw', hscan'⟩ := Token.scan_written piece'.written
      have hscans := hscan (bytes pieces)
      rw [h, hscan'] at hscans
      cases (List.cons.inj hscans).1
      have hoperation : piece.operation = piece'.operation := Option.some.inj (hwhole.symm.trans hwhole')
      have hbytes : piece.raw = piece'.raw := hraw.symm.trans hraw'
      rw [hbytes] at h
      obtain ⟨operation, raw, written⟩ := piece
      cases hoperation
      cases hbytes
      rw [ih (List.append_cancel_left h)]

end Piece

/-! ## Through a row of operations -/

namespace Chunk

theorem ofTokens_piece {piece : Piece} {counted : Nat} (offset : Nat) (rest : Bytes)
    (hpush : ∀ data, piece.operation = .push data → data.length ≤ itemLimit)
    (hcounted : counted + (if piece.operation.isCounted then 1 else 0) ≤ operationLimit) :
    ofTokens offset counted (Token.scan (piece.raw ++ rest)) =
      (ofTokens (offset + piece.raw.length) (counted + if piece.operation.isCounted then 1 else 0)
        (Token.scan rest)).map (⟨offset, piece.raw, piece.operation⟩ :: ·) := by
  obtain ⟨token, hwhole, hraw, hscan⟩ := Token.scan_written piece.written
  have hoperation : token.operation offset = .ok piece.operation := by
    cases ho : piece.operation with
    | push data =>
      have hle : ¬ itemLimit < data.length := Nat.not_lt.2 (hpush data ho)
      rw [Token.operation_of_push (hwhole.trans (congrArg some ho)), if_neg hle]
    | code op => exact Token.operation_of_code (hwhole.trans (congrArg some ho)) offset
  have hcount : (if piece.operation.isCounted then counted + 1 else counted) =
      counted + if piece.operation.isCounted then 1 else 0 := by
    split <;> rfl
  rw [hscan, ofTokens, hoperation]
  show (if operationLimit < (if piece.operation.isCounted then counted + 1 else counted) then _ else _) = _
  rw [hcount, if_neg (Nat.not_lt.2 hcounted), hraw]
  cases ofTokens _ _ (Token.scan rest) <;> rfl

/-- a row of whole operations within the limits is decoded, and then what follows it -/
theorem ofTokens_pieces {pieces : List Piece} {counted : Nat} (offset : Nat) (rest : Bytes)
    (hpushes : ∀ piece ∈ pieces, ∀ data, piece.operation = .push data → data.length ≤ itemLimit)
    (hcounted : counted + Piece.counted pieces ≤ operationLimit) :
    ofTokens offset counted (Token.scan (Piece.bytes pieces ++ rest)) =
      (ofTokens (offset + (Piece.bytes pieces).length) (counted + Piece.counted pieces) (Token.scan rest)).map
        (Piece.layOut offset pieces ++ ·) := by
  induction pieces generalizing offset counted with
  | nil =>
    show ofTokens offset counted (Token.scan rest) = (ofTokens offset counted (Token.scan rest)).map id
    cases ofTokens offset counted (Token.scan rest) <;> rfl
  | cons piece pieces ih =>
    have hlater : ∀ piece' ∈ pieces, ∀ data, piece'.operation = .push data → data.length ≤ itemLimit :=
      fun piece' hmem => hpushes piece' (List.mem_cons_of_mem _ hmem)
    rw [Piece.counted_cons] at hcounted ⊢
    rw [Piece.bytes_cons, List.append_assoc,
      ofTokens_piece offset _ (hpushes piece List.mem_cons_self) (by omega), ih _ hlater (by omega), List.length_append,
      Nat.add_assoc, Nat.add_assoc, Nat.add_comm (Piece.counted pieces)]
    cases ofTokens _ _ (Token.scan rest) <;> rfl

end Chunk

/-! ## The first fault -/

/-- what breaks a row of operations: the operation that follows it, at its place -/
inductive FirstFault (pieces : List Piece) : (rest : Bytes) → Failure → Prop where
  /-- a push that is cut -/
  | cut (rest : Bytes) (hcut : CutPush rest) : FirstFault pieces rest (.openPush (Piece.bytes pieces).length)
  /-- a whole push that is too long -/
  | long (data raw rest : Bytes) (hraw : (Operation.push data).WrittenAs raw) (hlong : itemLimit < data.length) :
      FirstFault pieces (raw ++ rest) (.longPush (Piece.bytes pieces).length data.length)
  /-- a counted operation after as many of them as there may be -/
  | many (op : Opcode) (raw rest : Bytes) (hraw : (Operation.code op).WrittenAs raw) (hop : op.isCounted)
      (hfull : Piece.counted pieces = operationLimit) : FirstFault pieces (raw ++ rest) .tooManyOperations

namespace FirstFault

variable {pieces : List Piece} {rest : Bytes} {failure : Failure}

/-- decoding ends at the first fault -/
theorem ofTokens_eq (h : FirstFault pieces rest failure) :
    Chunk.ofTokens (Piece.bytes pieces).length (Piece.counted pieces) (Token.scan rest) = .error failure := by
  cases h with
  | cut _ hcut =>
    obtain ⟨token, tokens, hwhole, hscan⟩ := Token.scan_cut hcut
    rw [hscan, Chunk.ofTokens, Token.operation_of_cut hwhole]
    rfl
  | long data raw rest hraw hlong =>
    obtain ⟨token, hwhole, -, hscan⟩ := Token.scan_written hraw
    rw [hscan, Chunk.ofTokens, Token.operation_of_push hwhole, if_pos hlong]
    rfl
  | many op raw rest hraw hop hfull =>
    obtain ⟨token, hwhole, -, hscan⟩ := Token.scan_written hraw
    have hmany : operationLimit < if (Operation.code op).isCounted then operationLimit + 1 else operationLimit := by
      rw [Operation.isCounted, if_pos hop]
      exact Nat.lt_succ_self _
    rw [hscan, Chunk.ofTokens, Token.operation_of_code hwhole, hfull]
    exact if_pos hmany

theorem kind_message (h : FirstFault pieces rest failure) :
    let offset := (Piece.bytes pieces).length
    (failure.kind = .invalidPushLength ∧
      (failure.message = s!"invalid push at byte {offset}: unexpected end of script" ∨
        ∃ length : Nat, failure.message = s!"push at byte {offset} is {length} bytes, at most {itemLimit} allowed")) ∨
      (failure.kind = .scriptSizeExceeded ∧ failure.message = s!"more than {operationLimit} non-push operations") := by
  cases h with
  | cut => exact .inl ⟨rfl, .inl rfl⟩
  | long data => exact .inl ⟨rfl, .inr ⟨data.length, rfl⟩⟩
  | many => exact .inr ⟨rfl, rfl⟩

end FirstFault

theorem Piece.fit_or_fault {pieces : List Piece} (h : Fit pieces) {rest : Bytes} (hrest : rest ≠ []) :
    (∃ failure, FirstFault pieces rest failure) ∨
      ∃ (piece : Piece) (later : Bytes), rest = piece.raw ++ later ∧ Fit (pieces ++ [piece]) := by
  rcases written_or_cut hrest with hcut | ⟨operation, raw, later, hraw, rfl⟩
  · exact .inl ⟨_, .cut _ hcut⟩
  · cases operation with
    | push data =>
      rcases Nat.lt_or_ge itemLimit data.length with hlong | hle
      · exact .inl ⟨_, .long data raw later hraw hlong⟩
      · have hone : Fit [⟨.push data, raw, hraw⟩] := by
          refine ⟨?_, Nat.zero_le _⟩
          intro piece hmem data' hdata
          rw [List.mem_singleton.1 hmem] at hdata
          cases hdata
          exact hle
        exact .inr ⟨⟨.push data, raw, hraw⟩, later, rfl, h.append hone h.operations⟩
    | code op =>
      have hone : Fit [⟨.code op, raw, hraw⟩] := by
        refine ⟨?_, Nat.le_trans List.countP_le_length one_le_operationLimit⟩
        intro piece hmem data hdata
        rw [List.mem_singleton.1 hmem] at hdata
        cases hdata
      by_cases hfull : op.isCounted ∧ counted pieces = operationLimit
      · exact .inl ⟨_, .many op raw later hraw hfull.1 hfull.2⟩
      · refine .inr ⟨⟨.code op, raw, hraw⟩, later, rfl, h.append hone ?_⟩
        have hle := h.operations
        rw [counted_singleton]
        by_cases hop : op.isCounted
        · have hne : counted pieces ≠ operationLimit := fun heq => hfull ⟨hop, heq⟩
          simp only [Operation.isCounted, hop, if_true]
          omega
        · simp only [Operation.isCounted, hop, if_false, Bool.false_eq_true]
          exact hle

/-- a row of operations goes on with whole ones to the end of the bytes that follow, or to a first fault. The induction
is on these bytes, with the row so far as it is -/
theorem Piece.more_or_fault {pieces : List Piece} (h : Fit pieces) (rest : Bytes) :
    ∃ more rest', rest = bytes more ++ rest' ∧ Fit (pieces ++ more) ∧
      (rest' = [] ∨ ∃ failure, FirstFault (pieces ++ more) rest' failure) := by
  induction hn : rest.length using Nat.strongRecOn generalizing rest pieces with
  | ind n ih =>
    by_cases hnil : rest = []
    · refine ⟨[], [], ?_, ?_, .inl rfl⟩
      · rw [hnil]
        rfl
      · rw [List.append_nil]
        exact h
    · rcases fit_or_fault h hnil with hfault | ⟨piece, later, rfl, hfit⟩
      · refine ⟨[], rest, rfl, ?_, .inr ?_⟩
        · rw [List.append_nil]
          exact h
        · rw [List.append_nil]
          exact hfault
      · have hpos : 0 < piece.raw.length := List.length_pos_iff.2 piece.written.raw_ne_nil
        rw [List.length_append] at hn
        obtain ⟨more, rest', hmore, hfit', hend⟩ := ih later.length (by omega) hfit later rfl
        rw [List.append_assoc, List.singleton_append] at hfit' hend
        refine ⟨piece :: more, rest', ?_, hfit', hend⟩
        rw [hmore, bytes_cons, List.append_assoc]

/-- every byte string is a row of whole operations within the limits, or such a row and a first fault -/
theorem pieces_or_fault (bs : Bytes) :
    ∃ pieces rest, bs = Piece.bytes pieces ++ rest ∧ Piece.Fit pieces ∧
      (rest = [] ∨ ∃ failure, FirstFault pieces rest failure) :=
  Piece.more_or_fault .nil bs

/-! ## What decoding gives -/

namespace Program

/-- whole operations within the limits are decoded to themselves, in their places -/
theorem decode_pieces {pieces : List Piece} (hlimit : (Piece.bytes pieces).length ≤ scriptLimit)
    (hfit : Piece.Fit pieces) : decode (Piece.bytes pieces) = .ok ⟨Piece.layOut 0 pieces⟩ := by
  have hcounted : 0 + Piece.counted pieces ≤ operationLimit := (Nat.zero_add _).symm ▸ hfit.operations
  have htokens := Chunk.ofTokens_pieces 0 [] hfit.pushes hcounted
  rw [List.append_nil, Token.scan, Chunk.ofTokens] at htokens
  rw [decode, if_neg (Nat.not_lt.2 hlimit), htokens]
  show Except.ok (Program.mk (_ ++ [])) = _
  rw [List.append_nil]

theorem decode_fault {pieces : List Piece} {rest : Bytes} {failure : Failure}
    (hlimit : (Piece.bytes pieces ++ rest).length ≤ scriptLimit) (hfit : Piece.Fit pieces)
    (hfault : FirstFault pieces rest failure) : decode (Piece.bytes pieces ++ rest) = .error failure := by
  have hcounted : 0 + Piece.counted pieces ≤ operationLimit := (Nat.zero_add _).symm ▸ hfit.operations
  have htokens := Chunk.ofTokens_pieces 0 rest hfit.pushes hcounted
  rw [Nat.zero_add, Nat.zero_add, hfault.ofTokens_eq] at htokens
  rw [decode, if_neg (Nat.not_lt.2 hlimit), htokens]
  rfl

theorem decode_long {script : Bytes} (h : scriptLimit < script.length) :
    decode script = .error (.longScript script.length) := by
  rw [decode, if_pos h]

/-- a script that is not too long is a row of whole operations, or has a first fault; and decoding tells which -/
theorem decode_cases {script : Bytes} (hlimit : script.length ≤ scriptLimit) :
    (∃ pieces, script = Piece.bytes pieces ∧ Piece.Fit pieces ∧ decode script = .ok ⟨Piece.layOut 0 pieces⟩) ∨
      ∃ pieces rest failure, script = Piece.bytes pieces ++ rest ∧ Piece.Fit pieces ∧
        FirstFault pieces rest failure ∧ decode script = .error failure := by
  obtain ⟨pieces, rest, rfl, hfit, rfl | ⟨failure, hfault⟩⟩ := pieces_or_fault script
  · rw [List.append_nil] at hlimit ⊢
    exact .inl ⟨pieces, rfl, hfit, decode_pieces hlimit hfit⟩
  · exact .inr ⟨pieces, rest, failure, rfl, hfit, hfault, decode_fault hlimit hfit hfault⟩

theorem pieces_of_decode {script : Bytes} {program : Program} (h : decode script = .ok program) :
    ∃ pieces, script = Piece.bytes pieces ∧ Piece.Fit pieces ∧ script.length ≤ scriptLimit ∧
      program = ⟨Piece.layOut 0 pieces⟩ := by
  rcases Nat.lt_or_ge scriptLimit script.length with hlong | hlimit
  · cases h.symm.trans (decode_long hlong)
  · rcases decode_cases hlimit with ⟨pieces, hscript, hfit, hd⟩ | ⟨_, _, failure, -, -, -, hd⟩
    · cases h.symm.trans hd
      exact ⟨pieces, hscript, hfit, hlimit, rfl⟩
    · cases h.symm.trans hd

theorem fault_of_decode {script : Bytes} {failure : Failure} (h : decode script = .error failure) :
    (scriptLimit < script.length ∧ failure = .longScript script.length) ∨
      (script.length ≤ scriptLimit ∧ ∃ pieces rest, script = Piece.bytes pieces ++ rest ∧ Piece.Fit pieces ∧
        FirstFault pieces rest failure) := by
  rcases Nat.lt_or_ge scriptLimit script.length with hlong | hlimit
  · cases h.symm.trans (decode_long hlong)
    exact .inl ⟨hlong, rfl⟩
  · rcases decode_cases hlimit with ⟨pieces, -, -, hd⟩ | ⟨pieces, rest, failure', hscript, hfit, hfault, hd⟩
    · cases h.symm.trans hd
    · cases h.symm.trans hd
      exact .inr ⟨hlimit, pieces, rest, hscript, hfit, hfault⟩

theorem kind_of_decode_error {script : Bytes} {failure : Failure} (h : decode script = .error failure) :
    failure.kind = .invalidPushLength ∨ failure.kind = .scriptSizeExceeded := by
  rcases fault_of_decode h with ⟨-, rfl⟩ | ⟨-, pieces, rest, -, -, hfault⟩
  · exact .inr rfl
  · cases hfault with
    | cut | long => exact .inl rfl
    | many => exact .inr rfl

end Program

/-! ## The limits in numbers -/

/-- an operation counts if it is written with an opcode above `60` -/
theorem Piece.isCounted_eq (piece : Piece) :
    piece.operation.isCounted = piece.raw.head?.any fun byte => 0x60 < byte := by
  have hbelow : ∀ n ≤ 0x4b, ¬ 0x60 < UInt8.ofNat n := by decide
  obtain ⟨operation, raw, written⟩ := piece
  cases written with
  | direct data hlength => simp [Operation.isCounted, hbelow _ hlength]
  | counted byte width data hform hlength =>
    have hbyte : ∀ form ∈ countedPushes, ¬ 0x60 < form.1 := by decide
    simp [Operation.isCounted, hbyte _ hform]
  | code op hop => rfl

/-- **The limits of scripts.** What is decoded has at most 10000 bytes, of which each push takes at most 520 for its
data, and at most 201 operations with an opcode above `60`. -/
theorem Program.decodes_iff (script : Bytes) :
    (∃ program, decode script = .ok program) ↔
      script.length ≤ 10000 ∧ ∃ pieces, script = Piece.bytes pieces ∧
        (∀ piece ∈ pieces, ∀ data, piece.operation = .push data → data.length ≤ 520) ∧
        (pieces.countP fun piece => piece.raw.head?.any fun byte => 0x60 < byte) ≤ 201 := by
  have hcounted : ∀ pieces, Piece.counted pieces =
      pieces.countP fun piece => piece.raw.head?.any fun byte => 0x60 < byte :=
    fun pieces => congrArg pieces.countP (funext Piece.isCounted_eq)
  constructor
  · rintro ⟨program, h⟩
    obtain ⟨pieces, hscript, hfit, hlimit, -⟩ := pieces_of_decode h
    exact ⟨hlimit, pieces, hscript, hfit.pushes, hcounted pieces ▸ hfit.operations⟩
  · rintro ⟨hlimit, pieces, rfl, hpushes, hoperations⟩
    exact ⟨_, decode_pieces hlimit ⟨hpushes, (hcounted pieces).symm ▸ hoperations⟩⟩

/-- **Which byte strings are scripts, and what is said of the others.** A byte string is decoded if and only if it is
not too long and is a row of whole operations within the limits, and it is decoded to these, each where it stands. Any
other fails for its length, or else for the first operation that breaks such a row. -/
theorem decode_by_grammar (script : Bytes) :
    (∀ program, Program.decode script = .ok program ↔
      script.length ≤ scriptLimit ∧
        ∃ pieces, script = Piece.bytes pieces ∧ Piece.Fit pieces ∧ program.chunks = Piece.layOut 0 pieces) ∧
    (∀ failure, Program.decode script = .error failure ↔
      (scriptLimit < script.length ∧ failure = .longScript script.length) ∨
        (script.length ≤ scriptLimit ∧
          ∃ pieces rest, script = Piece.bytes pieces ++ rest ∧ Piece.Fit pieces ∧ FirstFault pieces rest failure)) ∧
    (Failure.longScript script.length).kind = .scriptSizeExceeded ∧
    ∀ pieces rest failure, FirstFault pieces rest failure →
      let offset := (Piece.bytes pieces).length
      (failure.kind = .invalidPushLength ∧
        (failure.message = s!"invalid push at byte {offset}: unexpected end of script" ∨
          ∃ length : Nat,
            failure.message = s!"push at byte {offset} is {length} bytes, at most {itemLimit} allowed")) ∨
        (failure.kind = .scriptSizeExceeded ∧
          failure.message = s!"more than {operationLimit} non-push operations") := by
  refine ⟨?_, ?_, rfl, ?_⟩
  · intro program
    constructor
    · intro h
      obtain ⟨pieces, hscript, hfit, hlimit, rfl⟩ := Program.pieces_of_decode h
      exact ⟨hlimit, pieces, hscript, hfit, rfl⟩
    · rintro ⟨hlimit, pieces, rfl, hfit, hchunks⟩
      rw [Program.decode_pieces hlimit hfit, ← hchunks]
  · intro failure
    constructor
    · exact Program.fault_of_decode
    · rintro (⟨hlong, rfl⟩ | ⟨hlimit, pieces, rest, rfl, hfit, hfault⟩)
      · exact Program.decode_long hlong
      · exact Program.decode_fault hlimit hfit hfault
  · intro pieces rest failure hfault
    exact hfault.kind_message

end BitcoinScript
