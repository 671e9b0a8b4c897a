/-
Scripts one after another. The operations of a script cover its bytes without gaps, each of them is a script of its own,
and two scripts one after the other are the script of the operations of both, as long as the limits allow it. If the
second is no script for the sake of a push, neither are both together, for the sake of the same push.

Results:
- `Program.decode_append_ok`, `Program.decode_append_error`: a script before other bytes.
- `Program.exists_of_decode_append`: a script that begins with a script goes on with one.
- `decode_tiles_and_appends`: the operations of a script begin at its first byte, one after another and before its end;
  their bytes are those of the script, and the bytes of each are decoded to that operation alone. Let another byte
  string follow, so that the whole is not too long:
  - if that is a script, and not too many operations of both count, the whole is the script of the operations of the
    first and then of the second, those of the second later by the length of the first;
  - if it is none for a push, what stands before this push is a script; and if not too many operations of the first and
    of that part count, the whole is none for this push, later by the length of the first.
-/
import Mathlib.Control.Monad.Basic
import BitcoinScript.Proofs.Decoding.Acceptance
import BitcoinScript.Proofs.ScriptCode.Offsets

namespace BitcoinScript

/-! ## Moved to a later place -/

/-- the same operation, `n` bytes later -/
def Chunk.moved (n : Nat) (chunk : Chunk) : Chunk :=
  { chunk with offset := n + chunk.offset }

namespace Failure

/-- the byte where the push begins that a failure is about -/
def push? : Failure → Option Nat
  | .openPush offset | .longPush offset _ => some offset
  | _ => none

/-- the same failure, of a push that begins `n` bytes later -/
def moved (n : Nat) : Failure → Failure
  | .openPush offset => .openPush (n + offset)
  | .longPush offset length => .longPush (n + offset) length
  | failure => failure

theorem kind_moved (n : Nat) (failure : Failure) : (failure.moved n).kind = failure.kind := by
  cases failure <;> rfl

theorem push?_moved (n : Nat) (failure : Failure) : (failure.moved n).push? = failure.push?.map (n + ·) := by
  cases failure <;> rfl

end Failure

namespace Piece

variable {pieces more : List Piece}

theorem layOut_append (offset : Nat) :
    layOut offset (pieces ++ more) = layOut offset pieces ++ layOut (offset + (bytes pieces).length) more := by
  induction pieces generalizing offset with
  | nil => rfl
  | cons piece pieces ih =>
    rw [List.cons_append, layOut, ih, layOut, bytes_cons, List.length_append, Nat.add_assoc, List.cons_append]

theorem layOut_add (n offset : Nat) : layOut (n + offset) pieces = (layOut offset pieces).map (Chunk.moved n) := by
  induction pieces generalizing offset with
  | nil => rfl
  | cons piece pieces ih =>
    rw [layOut, Nat.add_assoc, ih, layOut, List.map_cons]
    rfl

theorem map_layOut {β : Type} {f : Chunk → β} {g : Piece → β}
    (h : ∀ offset piece, f ⟨offset, piece.raw, piece.operation⟩ = g piece) (offset : Nat) :
    (layOut offset pieces).map f = pieces.map g := by
  induction pieces generalizing offset with
  | nil => rfl
  | cons piece pieces ih => rw [layOut, List.map_cons, h, ih, List.map_cons]

theorem length_layOut (offset : Nat) (pieces : List Piece) : (layOut offset pieces).length = pieces.length := by
  rw [← List.length_map Chunk.operation, map_layOut (g := operation) (fun _ _ => rfl), List.length_map]

theorem consecutive_layOut (offset : Nat) (pieces : List Piece) :
    Chunk.Consecutive offset (layOut offset pieces) := by
  induction pieces generalizing offset with
  | nil => exact .nil
  | cons piece pieces ih => exact .cons rfl piece.written.raw_ne_nil (ih _)

theorem exists_of_mem_layOut {offset : Nat} {chunk : Chunk} (h : chunk ∈ layOut offset pieces) :
    ∃ piece ∈ pieces, piece.raw = chunk.raw ∧ piece.operation = chunk.operation := by
  induction pieces generalizing offset with
  | nil => cases h
  | cons piece pieces ih =>
    rcases List.mem_cons.1 h with rfl | h
    · exact ⟨piece, List.mem_cons_self, rfl, rfl⟩
    · obtain ⟨later, hmem, hlater⟩ := ih h
      exact ⟨later, List.mem_cons_of_mem _ hmem, hlater⟩

end Piece

/-! ## Rows of operations one after another -/

namespace FirstFault

variable {pieces : List Piece} {rest : Bytes} {failure : Failure}

theorem push?_eq (h : FirstFault pieces rest failure) (hkind : failure.kind = .invalidPushLength) :
    failure.push? = some (Piece.bytes pieces).length := by
  cases h with
  | cut | long => rfl
  | many => cases hkind

/-- a push that breaks a row breaks it after other operations too, later by their length -/
theorem append (h : FirstFault pieces rest failure) (hkind : failure.kind = .invalidPushLength) (before : List Piece) :
    FirstFault (before ++ pieces) rest (failure.moved (Piece.bytes before).length) := by
  have hlength : (Piece.bytes (before ++ pieces)).length =
      (Piece.bytes before).length + (Piece.bytes pieces).length := by
    rw [Piece.bytes_append, List.length_append]
  cases h with
  | cut _ hcut =>
    have hfault : FirstFault (before ++ pieces) rest _ := .cut rest hcut
    rwa [hlength] at hfault
  | long data raw rest hraw hlong =>
    have hfault : FirstFault (before ++ pieces) (raw ++ rest) _ := .long data raw rest hraw hlong
    rwa [hlength] at hfault
  | many => cases hkind

end FirstFault

namespace Program

variable {a b : Bytes} {first second : Program}

/-- how many of the operations count towards the limit -/
def counted (program : Program) : Nat :=
  program.operations.countP Operation.isCounted

theorem counted_layOut (pieces : List Piece) : counted ⟨Piece.layOut 0 pieces⟩ = Piece.counted pieces := by
  rw [counted, operations, Piece.map_layOut (fun _ _ => rfl), List.countP_map]
  rfl

/-- the script of two scripts one after the other has the operations of both, those of the second moved behind the
first -/
theorem decode_append_ok (ha : decode a = .ok first) (hb : decode b = .ok second)
    (hlimit : (a ++ b).length ≤ scriptLimit) (hcounted : first.counted + second.counted ≤ operationLimit) :
    decode (a ++ b) = .ok ⟨first.chunks ++ second.chunks.map (Chunk.moved a.length)⟩ := by
  obtain ⟨pieces, rfl, hfit, -, rfl⟩ := pieces_of_decode ha
  obtain ⟨more, rfl, hmore, -, rfl⟩ := pieces_of_decode hb
  rw [counted_layOut, counted_layOut] at hcounted
  rw [← Piece.bytes_append] at hlimit ⊢
  rw [decode_pieces hlimit (hfit.append hmore hcounted), Piece.layOut_append, Nat.zero_add, ← Piece.layOut_add,
    Nat.add_zero]

theorem exists_of_decode_append {whole : Program} (ha : decode a = .ok first) (hab : decode (a ++ b) = .ok whole) :
    ∃ second, decode b = .ok second ∧ whole.chunks = first.chunks ++ second.chunks.map (Chunk.moved a.length) := by
  obtain ⟨-, -, hlimit⟩ := of_decode hab
  obtain ⟨pieces, rfl, hfit, -, hfirst⟩ := pieces_of_decode ha
  obtain ⟨more, rest, rfl, hmore, rfl | ⟨failure, hfault⟩⟩ := Piece.more_or_fault hfit b
  · rw [List.append_nil] at hab hlimit ⊢
    have hcounted : first.counted + counted ⟨Piece.layOut 0 more⟩ ≤ operationLimit := by
      rw [hfirst, counted_layOut, counted_layOut, ← Piece.counted_append]
      exact hmore.operations
    have hb : decode (Piece.bytes more) = .ok ⟨Piece.layOut 0 more⟩ := by
      refine decode_pieces ?_ hmore.of_append_right
      rw [List.length_append] at hlimit
      omega
    cases hab.symm.trans (decode_append_ok ha hb hlimit hcounted)
    exact ⟨_, hb, rfl⟩
  · rw [← List.append_assoc, ← Piece.bytes_append] at hab hlimit
    cases hab.symm.trans (decode_fault hlimit hmore hfault)

/-- before a push that makes the second no script stand whole operations; and if these and those of the first are not
too many, the two together are no script for that push, later by the length of the first -/
theorem decode_append_error {failure : Failure} (ha : decode a = .ok first) (hb : decode b = .error failure)
    (hkind : failure.kind = .invalidPushLength) (hlimit : (a ++ b).length ≤ scriptLimit) :
    ∃ offset before, failure.push? = some offset ∧ decode (b.take offset) = .ok before ∧
      (first.counted + before.counted ≤ operationLimit → decode (a ++ b) = .error (failure.moved a.length)) := by
  obtain ⟨pieces, rfl, hfit, -, rfl⟩ := pieces_of_decode ha
  rcases fault_of_decode hb with ⟨-, rfl⟩ | ⟨hlimit', more, rest, rfl, hmore, hfault⟩
  · cases hkind
  · have hbefore : (Piece.bytes more).length ≤ scriptLimit := by
      rw [List.length_append] at hlimit'
      omega
    refine ⟨(Piece.bytes more).length, ⟨Piece.layOut 0 more⟩, hfault.push?_eq hkind, ?_, ?_⟩
    · rw [List.take_left]
      exact decode_pieces hbefore hmore
    · intro hcounted
      rw [counted_layOut, counted_layOut] at hcounted
      rw [← List.append_assoc, ← Piece.bytes_append] at hlimit ⊢
      exact decode_fault hlimit (hfit.append hmore hcounted) (hfault.append hkind pieces)

/-- each operation, in its own bytes, is a script -/
theorem decode_raw (ha : decode a = .ok first) {chunk : Chunk} (hmem : chunk ∈ first.chunks) :
    decode chunk.raw = .ok ⟨[⟨0, chunk.raw, chunk.operation⟩]⟩ := by
  obtain ⟨pieces, rfl, hfit, hlimit, rfl⟩ := pieces_of_decode ha
  obtain ⟨piece, hpiece, hraw, hoperation⟩ := Piece.exists_of_mem_layOut hmem
  have hone : Piece.bytes [piece] = chunk.raw := by
    rw [Piece.bytes_cons, hraw]
    exact List.append_nil _
  have hle : chunk.raw.length ≤ scriptLimit := hraw ▸ Nat.le_trans (Piece.length_raw_le hpiece) hlimit
  rw [← hone] at hle ⊢
  rw [decode_pieces hle (hfit.of_mem hpiece), Piece.layOut, Piece.layOut, hone, hraw, hoperation]

theorem offset_append_left {whole : Program} {n : Nat}
    (h : whole.chunks = first.chunks ++ second.chunks.map (Chunk.moved n)) {pc : Nat} (hpc : pc < first.length) :
    whole.offset pc = first.offset pc := by
  have hget : whole.chunks[pc]? = first.chunks[pc]? := by
    rw [h, List.getElem?_append_left hpc]
  rw [offset, offset, hget, List.getElem?_eq_getElem hpc]

theorem offset_append_right {whole : Program}
    (h : whole.chunks = first.chunks ++ second.chunks.map (Chunk.moved first.bytes.length)) (pc : Nat) :
    whole.offset (first.length + pc) = first.bytes.length + second.offset pc := by
  have hget : whole.chunks[first.length + pc]? = second.chunks[pc]?.map (Chunk.moved first.bytes.length) := by
    rw [h, length, List.getElem?_append_right (Nat.le_add_right _ _), Nat.add_sub_cancel_left, List.getElem?_map]
  have hbytes : whole.bytes = first.bytes ++ second.bytes := by
    rw [bytes, h, List.flatMap_append, List.flatMap_map]
    rfl
  rw [offset, offset, hget]
  cases second.chunks[pc]? with
  | some chunk => rfl
  | none =>
    show whole.bytes.length = _
    rw [hbytes, List.length_append]

theorem offset_append_le {whole : Program} (hsecond : second.Consecutive)
    (h : whole.chunks = first.chunks ++ second.chunks.map (Chunk.moved first.bytes.length)) {pc : Nat}
    (hpc : pc ≤ first.length) : whole.offset pc = first.offset pc := by
  rcases Nat.lt_or_eq_of_le hpc with hlt | rfl
  · exact offset_append_left h hlt
  · have hstart : second.offset 0 = 0 := by
      rw [hsecond.offset_eq]
      rfl
    rw [offset_length, ← Nat.add_zero first.length, offset_append_right h, hstart, Nat.add_zero]

theorem name_append_left {whole : Program} {n : Nat}
    (h : whole.chunks = first.chunks ++ second.chunks.map (Chunk.moved n)) {pc : Nat} (hpc : pc < first.length) :
    whole.name pc = first.name pc := by
  rw [name, name, h, List.getElem?_append_left hpc]

theorem operations_append {whole : Program} {n : Nat}
    (h : whole.chunks = first.chunks ++ second.chunks.map (Chunk.moved n)) :
    whole.operations = first.operations ++ second.operations := by
  rw [operations, h, List.map_append, List.map_map]
  rfl

/-- the bytes between the offsets, one after another -/
theorem Consecutive.flatMap_rawOp (h : first.Consecutive) :
    (List.range first.length).flatMap first.rawOp = first.bytes := by
  have hraws : (List.range first.length).map first.rawOp = first.chunks.map Chunk.raw := by
    refine List.ext_getElem ?_ ?_
    · rw [List.length_map, List.length_map, List.length_range, length]
    · intro pc hpc hpc'
      rw [List.length_map] at hpc'
      rw [List.getElem_map, List.getElem_map, List.getElem_range]
      exact h.rawOp_eq_raw (List.getElem?_eq_getElem hpc')
  rw [List.flatMap_def, hraws, bytes, List.flatMap_def]

end Program

/-- **Scripts cover their bytes, and go one after another.** The operations of a script tile its bytes, and the bytes of
each are the script of that operation. A script and a byte string after it are decoded, or fail, as the two of them do,
later by the length of the first, as long as the limits allow it. -/
theorem decode_tiles_and_appends (a : Bytes) (first : Program) (ha : Program.decode a = .ok first) :
    ((∀ i j, i < j → j ≤ first.length → first.offset i < first.offset j) ∧ first.offset 0 = 0 ∧
      (∀ i < first.length, first.offset i < a.length) ∧ first.offset first.length = a.length) ∧
    (List.range first.length).flatMap first.rawOp = a ∧
    (∀ (i : Nat) (operation : Operation), first.operations[i]? = some operation →
      ∃ alone, Program.decode (first.rawOp i) = .ok alone ∧ alone.operations = [operation]) ∧
    ∀ b : Bytes, (a ++ b).length ≤ scriptLimit →
      (∀ second, Program.decode b = .ok second → first.counted + second.counted ≤ operationLimit →
        ∃ whole, Program.decode (a ++ b) = .ok whole ∧
          whole.operations = first.operations ++ second.operations ∧
          (∀ i < first.length, whole.offset i = first.offset i) ∧
          ∀ i, whole.offset (first.length + i) = a.length + second.offset i) ∧
      ∀ failure, Program.decode b = .error failure → failure.kind = .invalidPushLength →
        ∃ offset before, failure.push? = some offset ∧ Program.decode (b.take offset) = .ok before ∧
          (first.counted + before.counted ≤ operationLimit →
            let failure' := failure.moved a.length
            Program.decode (a ++ b) = .error failure' ∧ failure'.kind = .invalidPushLength ∧
              failure'.push? = some (a.length + offset)) := by
  obtain ⟨hcons, hbytes, -⟩ := Program.of_decode ha
  have hend : first.offset first.length = a.length := by
    rw [first.offset_length, hbytes]
  refine ⟨⟨?_, ?_, ?_, hend⟩, ?_, ?_, ?_⟩
  · intro i j hij hj
    exact hcons.offset_lt hij (Nat.lt_of_lt_of_le hij hj)
  · rw [hcons.offset_eq]
    rfl
  · intro i hi
    exact hend ▸ hcons.offset_lt hi hi
  · rw [hcons.flatMap_rawOp, hbytes]
  · intro i operation hi
    rw [Program.operations, List.getElem?_map, Option.map_eq_some_iff] at hi
    obtain ⟨chunk, hget, rfl⟩ := hi
    refine ⟨⟨[⟨0, chunk.raw, chunk.operation⟩]⟩, ?_, rfl⟩
    rw [hcons.rawOp_eq_raw hget]
    exact Program.decode_raw ha (List.mem_of_getElem? hget)
  · intro b hlimit
    refine ⟨?_, ?_⟩
    · intro second hb hcounted
      refine ⟨_, Program.decode_append_ok ha hb hlimit hcounted, ?_, ?_, ?_⟩
      · rw [Program.operations, List.map_append, List.map_map]
        rfl
      · intro i hi
        exact Program.offset_append_left rfl hi
      · intro i
        rw [← hbytes]
        exact Program.offset_append_right rfl i
    · intro failure hb hkind
      obtain ⟨offset, before, hpush, hbefore, hwhole⟩ := Program.decode_append_error ha hb hkind hlimit
      refine ⟨offset, before, hpush, hbefore, ?_⟩
      intro hcounted
      refine ⟨hwhole hcounted, ?_, ?_⟩
      · rw [Failure.kind_moved, hkind]
      · rw [Failure.push?_moved, hpush]
        rfl

/-- a push and an opcode, with a script after them and with a cut push -/
theorem decode_tiles_and_appends_push :
    let a : Bytes := [0x4c, 0x01, 0xff, 0x76]
    let first : Program := ⟨[⟨0, [0x4c, 0x01, 0xff], .push [0xff]⟩, ⟨3, [0x76], .code ⟨0x76⟩⟩]⟩
    let second : Program := ⟨[⟨0, [0x00], .push []⟩, ⟨1, [0xac], .code ⟨0xac⟩⟩]⟩
    Program.decode a = .ok first ∧ first.offset 1 < first.offset 2 ∧ first.rawOp 0 ++ (first.rawOp 1 ++ []) = a ∧
      (∃ whole, Program.decode (a ++ [0x00, 0xac]) = .ok whole ∧
        whole.operations = first.operations ++ second.operations ∧ whole.offset 3 = 4 + second.offset 1) ∧
      Program.decode (a ++ [0xac, 0x03, 0x01]) = .error (.openPush 5) := by
  intro a first second
  have ha : Program.decode a = .ok first := by decide +kernel
  have hsecond : Program.decode [0x00, 0xac] = .ok second := by decide +kernel
  have hcut : Program.decode [0xac, 0x03, 0x01] = .error (.openPush 1) := by decide +kernel
  have hpart : Program.decode [0xac] = .ok ⟨[⟨0, [0xac], .code ⟨0xac⟩⟩]⟩ := by decide +kernel
  obtain ⟨⟨hoffsets, -⟩, hbytes, -, happend⟩ := decode_tiles_and_appends a first ha
  obtain ⟨whole, hwhole, hoperations, -, hlater⟩ := (happend [0x00, 0xac] (by decide)).1 second hsecond (by decide)
  obtain ⟨offset, before, hpush, hbefore, hfault⟩ := (happend [0xac, 0x03, 0x01] (by decide)).2 _ hcut rfl
  cases hpush
  cases hpart.symm.trans hbefore
  exact ⟨ha, hoffsets 1 2 (by decide) (by decide), hbytes, ⟨whole, hwhole, hoperations, hlater 1⟩,
    (hfault (by decide)).1⟩

end BitcoinScript
