/-
What the script code leaves out, and how it is decoded again. The operations that stay are whole ones within the limits,
so put one after another they are a script of just these: nothing is cut, and no push takes in what follows it. The
push of a signature is left out if it is written in the shortest form, and the other forms stay.

Results:
- `Piece.kept_sublist`, `Piece.map_form_kept`: what stays of a row of operations is a part of it, told by its chunks.
- `Program.decode_scriptCode`: the script code is decoded to what stays.
- `Piece.Inserted.kept_eq`, `Program.scriptCode_inserted`: what is left out anyway may stand in the script or not.
- `canonicalPush_written`: the shortest form is a form, so it is the push of one byte string only.
- `script_code_decodes`: for a decoded script, a byte `start`, on the border of operations or not, and any signatures,
  - the script code is a script; its operations, each with the bytes it is written in, are those of the script that
    begin at `start` or later and are neither separators nor shortest pushes of a signature, in their order;
  - its own script code from the first byte on, for the same signatures, is all of it;
  - other signatures with the same members give the same script code;
  - so does the script with separators and shortest pushes of signatures put in between operations, at `start` or later,
    as long as the whole keeps the limits; and then it is a script.
- `signature_pushes_left`: which pushes of the signatures are in the script code, and when there are none.
-/
import BitcoinScript.Proofs.Decoding.Concatenation
import BitcoinScript.Proofs.ScriptCode.Separator

namespace BitcoinScript

/-! ## Which operations stay -/

namespace Chunk

/-- the operation with the bytes it is written in, wherever it stands -/
def form (chunk : Chunk) : Operation × Bytes :=
  (chunk.operation, chunk.raw)

/-- the operation is in the script code from byte `start` on -/
def Stays (start : Nat) (signatures : List Bytes) (chunk : Chunk) : Prop :=
  start ≤ chunk.offset ∧ chunk.operation ≠ .code .codeSeparator ∧
    ∀ signature ∈ signatures, chunk.raw ≠ canonicalPush signature

instance (start : Nat) (signatures : List Bytes) : DecidablePred (Stays start signatures) :=
  fun _ => inferInstanceAs (Decidable (_ ∧ _ ∧ _))

end Chunk

theorem Program.Consecutive.scriptCode_eq_filter {program : Program} (h : program.Consecutive) {start : Nat}
    {signatures : List Bytes} :
    program.scriptCode start signatures = (program.chunks.filter (Chunk.Stays start signatures)).flatMap Chunk.raw := by
  rw [scriptCode, h.chunksFrom_eq_filter, List.filter_filter]
  congr 2
  funext chunk
  rw [Bool.eq_iff_iff, Bool.and_eq_true, Chunk.isSigned_iff, decide_eq_true_eq, decide_eq_true_eq, and_comm]
  rfl

namespace Piece

variable {start offset : Nat} {signatures : List Bytes} {piece : Piece} {pieces more : List Piece}

def form (piece : Piece) : Operation × Bytes :=
  (piece.operation, piece.raw)

/-- what stays in the script code from byte `start` on, of a row of operations that begins at byte `offset` -/
def kept (start : Nat) (signatures : List Bytes) : (offset : Nat) → List Piece → List Piece
  | _, [] => []
  | offset, piece :: pieces =>
    let later := kept start signatures (offset + piece.raw.length) pieces
    if Chunk.Stays start signatures ⟨offset, piece.raw, piece.operation⟩ then piece :: later else later

theorem kept_sublist (pieces : List Piece) : (kept start signatures offset pieces).Sublist pieces := by
  induction pieces generalizing offset with
  | nil => exact .slnil
  | cons piece pieces ih =>
    rw [kept]
    split
    · exact ih.cons_cons piece
    · exact ih.cons piece

theorem map_form_layOut (offset : Nat) (pieces : List Piece) :
    (layOut offset pieces).map Chunk.form = pieces.map form :=
  map_layOut (fun _ _ => rfl) offset

theorem map_form_kept (offset : Nat) (pieces : List Piece) :
    (kept start signatures offset pieces).map form =
      ((layOut offset pieces).filter (Chunk.Stays start signatures)).map Chunk.form := by
  induction pieces generalizing offset with
  | nil => rfl
  | cons piece pieces ih =>
    simp only [kept, layOut, List.filter_cons, decide_eq_true_eq]
    split
    · rw [List.map_cons, List.map_cons, ih]
      rfl
    · exact ih _

/-- the script code is made of what stays -/
theorem scriptCode_layOut (start : Nat) (signatures : List Bytes) (pieces : List Piece) :
    Program.scriptCode ⟨layOut 0 pieces⟩ start signatures = bytes (kept start signatures 0 pieces) := by
  have hcons : Program.Consecutive ⟨layOut 0 pieces⟩ := consecutive_layOut 0 pieces
  calc Program.scriptCode ⟨layOut 0 pieces⟩ start signatures
    _ = ((layOut 0 pieces).filter (Chunk.Stays start signatures)).flatMap Chunk.raw := hcons.scriptCode_eq_filter
    _ = (((layOut 0 pieces).filter (Chunk.Stays start signatures)).map Chunk.form).flatMap Prod.snd :=
        (List.flatMap_map Chunk.form Prod.snd _).symm
    _ = ((kept start signatures 0 pieces).map form).flatMap Prod.snd := by rw [map_form_kept]
    _ = bytes (kept start signatures 0 pieces) := List.flatMap_map form Prod.snd _

end Piece

/-! ## Putting in what is left out -/

namespace Piece

/-- a row of operations from byte `offset` on, and the same with separators and shortest pushes of signatures put in
between at or after byte `start` -/
inductive Inserted (start : Nat) (signatures : List Bytes) : (offset : Nat) → List Piece → List Piece → Prop where
  | done {offset : Nat} : Inserted start signatures offset [] []
  | keep {offset : Nat} {piece : Piece} {pieces more : List Piece}
      (hlater : Inserted start signatures (offset + piece.raw.length) pieces more) :
      Inserted start signatures offset (piece :: pieces) (piece :: more)
  | insert {offset : Nat} {piece : Piece} {pieces more : List Piece} (hstart : start ≤ offset)
      (hpiece : piece.operation = .code .codeSeparator ∨
        ∃ signature ∈ signatures, piece.raw = canonicalPush signature)
      (hlater : Inserted start signatures offset pieces more) :
      Inserted start signatures offset pieces (piece :: more)

namespace Inserted

variable {start offset : Nat} {signatures : List Bytes} {pieces more : List Piece}

theorem sublist (h : Inserted start signatures offset pieces more) : pieces.Sublist more := by
  induction h with
  | done => exact .slnil
  | keep _ ih => exact ih.cons_cons _
  | insert _ _ _ ih => exact ih.cons _

/-- what is put in does not stay, and moves nothing over the start: before the start nothing is put in, so the two rows
are at the same byte, and later both are behind it -/
theorem kept_eq (h : Inserted start signatures offset pieces more) {offset' : Nat}
    (hoffset : offset' = offset ∨ start ≤ offset ∧ start ≤ offset') :
    kept start signatures offset' more = kept start signatures offset pieces := by
  induction h generalizing offset' with
  | done => rfl
  | @keep offset piece pieces more _ ih =>
    have hstart : start ≤ offset' ↔ start ≤ offset := by omega
    have hlater : kept start signatures (offset' + piece.raw.length) more =
        kept start signatures (offset + piece.raw.length) pieces := ih (by omega)
    rw [kept, kept, hlater]
    exact if_congr (and_congr_left' hstart) rfl rfl
  | @insert offset piece pieces more hstart hpiece _ ih =>
    have hleft : ¬ Chunk.Stays start signatures ⟨offset', piece.raw, piece.operation⟩ := by
      rintro ⟨-, hoperation, hraw⟩
      rcases hpiece with hseparator | ⟨signature, hmem, hpush⟩
      · exact hoperation hseparator
      · exact hraw signature hmem hpush
    rw [kept, if_neg hleft]
    exact ih (by omega)

end Inserted

end Piece

/-! ## The shortest push -/

theorem canonicalPush_written {data : Bytes} (h : data.length < Bytes.capacity 4) :
    (Operation.push data).WrittenAs (canonicalPush data) := by
  unfold canonicalPush
  split
  · rename_i hlength
    exact .direct data (Nat.le_of_lt_succ hlength)
  · split
    · rename_i hlength
      exact .counted 0x4c 1 data (by simp [countedPushes]) hlength
    · split
      · rename_i hlength
        exact .counted 0x4d 2 data (by simp [countedPushes]) hlength
      · exact .counted 0x4e 4 data (by simp [countedPushes]) h

/-- a shortest push that stands in a script is that of its data -/
theorem Operation.WrittenAs.eq_of_canonicalPush {operation : Operation} {data : Bytes}
    (h : operation.WrittenAs (canonicalPush data)) (hlimit : (canonicalPush data).length ≤ scriptLimit) :
    operation = .push data := by
  have hlength : data.length ≤ scriptLimit := Nat.le_trans (length_le_canonicalPush data) hlimit
  exact h.unique (canonicalPush_written (Nat.lt_of_le_of_lt hlength (by decide)))

/-! ## Decoding what stays -/

namespace Program

variable {script : Bytes} {program result : Program} {start : Nat} {signatures : List Bytes} {chunk : Chunk}

theorem written_of_mem (h : decode script = .ok program) (hmem : chunk ∈ program.chunks) :
    chunk.operation.WrittenAs chunk.raw ∧ chunk.raw.length ≤ scriptLimit := by
  obtain ⟨pieces, rfl, -, hlimit, rfl⟩ := pieces_of_decode h
  obtain ⟨piece, hpiece, hraw, hoperation⟩ := Piece.exists_of_mem_layOut hmem
  rw [← hraw, ← hoperation]
  exact ⟨piece.written, Nat.le_trans (Piece.length_raw_le hpiece) hlimit⟩

/-- the script code is decoded to what stays -/
theorem decode_scriptCode (h : decode script = .ok program) (start : Nat) (signatures : List Bytes) :
    ∃ result, decode (program.scriptCode start signatures) = .ok result ∧
      result.chunks.map Chunk.form = (program.chunks.filter (Chunk.Stays start signatures)).map Chunk.form := by
  obtain ⟨pieces, rfl, hfit, hlimit, rfl⟩ := pieces_of_decode h
  have hkept : (Piece.kept start signatures 0 pieces).Sublist pieces := Piece.kept_sublist pieces
  have hle : (Piece.bytes (Piece.kept start signatures 0 pieces)).length ≤ scriptLimit :=
    Nat.le_trans (Piece.length_bytes_le hkept) hlimit
  rw [Piece.scriptCode_layOut]
  refine ⟨_, decode_pieces hle (hfit.sublist hkept), ?_⟩
  rw [Piece.map_form_layOut, Piece.map_form_kept]

theorem stays_of_form
    (h : result.chunks.map Chunk.form = (program.chunks.filter (Chunk.Stays start signatures)).map Chunk.form)
    (hmem : chunk ∈ result.chunks) : chunk.Stays 0 signatures := by
  have hform : chunk.form ∈ (program.chunks.filter (Chunk.Stays start signatures)).map Chunk.form :=
    h ▸ List.mem_map_of_mem hmem
  obtain ⟨chunk', hmem', heq⟩ := List.mem_map.1 hform
  obtain ⟨-, hoperation, hraw⟩ := of_decide_eq_true (List.mem_filter.1 hmem').2
  obtain ⟨hsame, hsame'⟩ := Prod.mk.inj heq
  exact ⟨Nat.zero_le _, hsame ▸ hoperation, hsame' ▸ hraw⟩

/-- a script whose operations all stay is its own script code -/
theorem scriptCode_eq_self (h : decode script = .ok program)
    (hstays : ∀ chunk ∈ program.chunks, chunk.Stays start signatures) :
    program.scriptCode start signatures = script := by
  obtain ⟨hcons, hbytes, -⟩ := of_decode h
  rw [hcons.scriptCode_eq_filter, List.filter_eq_self.2 fun chunk hmem => decide_eq_true (hstays chunk hmem)]
  exact hbytes

/-- what is left out anyway may be put into a script -/
theorem scriptCode_inserted {pieces more : List Piece} (h : decode (Piece.bytes pieces) = .ok program)
    (hinserted : Piece.Inserted start signatures 0 pieces more) (hlimit : (Piece.bytes more).length ≤ scriptLimit)
    (hmore : Piece.Fit more) :
    ∃ changed, decode (Piece.bytes more) = .ok changed ∧
      changed.scriptCode start signatures = program.scriptCode start signatures := by
  have hpart : pieces.Sublist more := hinserted.sublist
  have hle : (Piece.bytes pieces).length ≤ scriptLimit := Nat.le_trans (Piece.length_bytes_le hpart) hlimit
  have hprogram : program = ⟨Piece.layOut 0 pieces⟩ :=
    Except.ok.inj (h.symm.trans (decode_pieces hle (hmore.sublist hpart)))
  refine ⟨_, decode_pieces hlimit hmore, ?_⟩
  calc Program.scriptCode ⟨Piece.layOut 0 more⟩ start signatures
    _ = Piece.bytes (Piece.kept start signatures 0 more) := Piece.scriptCode_layOut start signatures more
    _ = Piece.bytes (Piece.kept start signatures 0 pieces) := by rw [hinserted.kept_eq (.inl rfl)]
    _ = Program.scriptCode ⟨Piece.layOut 0 pieces⟩ start signatures :=
        (Piece.scriptCode_layOut start signatures pieces).symm
    _ = program.scriptCode start signatures := by rw [← hprogram]

end Program

/-- **The script code is decoded to the operations that stay.** These are the operations from the start on that are
neither separators nor shortest pushes of a signature; to leave out once more changes nothing, and what is left out
anyway may be put into the script. -/
theorem script_code_decodes (script : Bytes) (program : Program) (h : Program.decode script = .ok program)
    (start : Nat) (signatures : List Bytes) :
    let code := program.scriptCode start signatures
    (∃ result, Program.decode code = .ok result ∧
      result.chunks.map Chunk.form = (program.chunks.filter (Chunk.Stays start signatures)).map Chunk.form ∧
      result.scriptCode 0 signatures = code) ∧
    (∀ signatures', (∀ signature, signature ∈ signatures' ↔ signature ∈ signatures) →
      program.scriptCode start signatures' = code) ∧
    ∀ pieces more, script = Piece.bytes pieces → Piece.Inserted start signatures 0 pieces more →
      (Piece.bytes more).length ≤ scriptLimit → Piece.Fit more →
      ∃ changed, Program.decode (Piece.bytes more) = .ok changed ∧ changed.scriptCode start signatures = code := by
  intro code
  refine ⟨?_, ?_, ?_⟩
  · obtain ⟨result, hresult, hform⟩ := Program.decode_scriptCode h start signatures
    exact ⟨result, hresult, hform, Program.scriptCode_eq_self hresult fun chunk => Program.stays_of_form hform⟩
  · intro signatures' hsame
    exact program.scriptCode_congr hsame start
  · rintro pieces more rfl hinserted hlimit hmore
    exact Program.scriptCode_inserted h hinserted hlimit hmore

/-- the script code begins inside a push of the signature, and the other push of it is not the shortest. A separator
and a shortest push are put in -/
theorem script_code_decodes_inside :
    let script : Bytes := [0x02, 0xaa, 0xbb, 0x4c, 0x02, 0xaa, 0xbb, 0xac]
    let program : Program :=
      ⟨[⟨0, [0x02, 0xaa, 0xbb], .push [0xaa, 0xbb]⟩, ⟨3, [0x4c, 0x02, 0xaa, 0xbb], .push [0xaa, 0xbb]⟩,
        ⟨7, [0xac], .code ⟨0xac⟩⟩]⟩
    let code : Bytes := [0x4c, 0x02, 0xaa, 0xbb, 0xac]
    Program.decode script = .ok program ∧ program.scriptCode 1 [[0xaa, 0xbb]] = code ∧
      (∃ result, Program.decode code = .ok result ∧
        result.chunks.map Chunk.form =
          [(.push [0xaa, 0xbb], [0x4c, 0x02, 0xaa, 0xbb]), (.code ⟨0xac⟩, [0xac])] ∧
        result.scriptCode 0 [[0xaa, 0xbb]] = code) ∧
      program.scriptCode 1 [[0xaa, 0xbb], [0xaa, 0xbb]] = code ∧
      ∃ changed, Program.decode [0x02, 0xaa, 0xbb, 0xab, 0x4c, 0x02, 0xaa, 0xbb, 0x02, 0xaa, 0xbb, 0xac] = .ok changed ∧
        changed.scriptCode 1 [[0xaa, 0xbb]] = code := by
  intro script program code
  have h : Program.decode script = .ok program := by decide +kernel
  have hcode : program.scriptCode 1 [[0xaa, 0xbb]] = code := by decide
  obtain ⟨⟨result, hresult, hform, hagain⟩, hset, hinsert⟩ := script_code_decodes script program h 1 [[0xaa, 0xbb]]
  rw [hcode] at hresult hagain hset hinsert
  let shortest : Piece := ⟨.push [0xaa, 0xbb], [0x02, 0xaa, 0xbb], .direct [0xaa, 0xbb] (by decide)⟩
  let longer : Piece :=
    ⟨.push [0xaa, 0xbb], [0x4c, 0x02, 0xaa, 0xbb], .counted 0x4c 1 [0xaa, 0xbb] (by simp [countedPushes]) (by decide)⟩
  let separator : Piece := ⟨.code .codeSeparator, [0xab], .code .codeSeparator (by decide)⟩
  let check : Piece := ⟨.code ⟨0xac⟩, [0xac], .code ⟨0xac⟩ (by decide)⟩
  have hinserted : Piece.Inserted 1 [[0xaa, 0xbb]] 0 [shortest, longer, check]
      [shortest, separator, longer, shortest, check] :=
    .keep (.insert (by decide) (.inl rfl)
      (.keep (.insert (by decide) (.inr ⟨[0xaa, 0xbb], by simp, by decide⟩) (.keep .done))))
  have hfit : Piece.Fit [shortest, separator, longer, shortest, check] := by
    refine ⟨?_, by decide⟩
    simp [shortest, separator, longer, check, itemLimit]
  refine ⟨h, hcode, ⟨result, hresult, hform.trans (by decide), hagain⟩, hset _ (by simp), ?_⟩
  exact hinsert _ _ rfl hinserted (by decide) hfit

/-! ## The pushes of signatures -/

namespace Program

variable {script data : Bytes} {program result : Program} {start : Nat} {signatures : List Bytes} {chunk : Chunk}

/-- a push of a signature stays if and only if it is not the shortest: the shortest push of no other signature has its
bytes -/
theorem stays_push_iff (h : decode script = .ok program) (hdata : data ∈ signatures) (hmem : chunk ∈ program.chunks)
    (hpush : chunk.operation = .push data) :
    chunk.Stays start signatures ↔ start ≤ chunk.offset ∧ chunk.raw ≠ canonicalPush data := by
  obtain ⟨hwritten, hlimit⟩ := written_of_mem h hmem
  constructor
  · rintro ⟨hstart, -, hraw⟩
    exact ⟨hstart, hraw data hdata⟩
  · rintro ⟨hstart, hraw⟩
    refine ⟨hstart, ?_, ?_⟩
    · rw [hpush]
      nofun
    · intro other _ heq
      rw [heq] at hwritten hlimit
      have hother : Operation.push data = .push other := hpush ▸ hwritten.eq_of_canonicalPush hlimit
      cases hother
      exact hraw heq

/-- the bytes of the pushes of a byte string, in their order -/
def pushesOf (program : Program) (data : Bytes) : List Bytes :=
  (program.chunks.filter (·.operation = .push data)).map Chunk.raw

theorem pushesOf_eq_nil_iff : program.pushesOf data = [] ↔ .push data ∉ program.operations := by
  simp [pushesOf, operations, List.filter_eq_nil_iff]

theorem pushesOf_of_form {chunks : List Chunk} (h : program.chunks.map Chunk.form = chunks.map Chunk.form)
    (data : Bytes) : program.pushesOf data = (chunks.filter (·.operation = .push data)).map Chunk.raw := by
  have hform : ∀ chunks : List Chunk, (chunks.filter (·.operation = .push data)).map Chunk.raw =
      ((chunks.map Chunk.form).filter (·.1 = .push data)).map Prod.snd := by
    intro chunks
    rw [List.filter_map, List.map_map]
    rfl
  rw [pushesOf, hform, hform, h]

/-- of the pushes of a signature, those stay that are not the shortest -/
theorem pushesOf_scriptCode (h : decode script = .ok program)
    (hform : result.chunks.map Chunk.form = (program.chunks.filter (Chunk.Stays start signatures)).map Chunk.form)
    (hdata : data ∈ signatures) :
    result.pushesOf data =
      (program.chunks.filter fun chunk =>
        start ≤ chunk.offset ∧ chunk.operation = .push data ∧ chunk.raw ≠ canonicalPush data).map Chunk.raw := by
  rw [pushesOf_of_form hform, List.filter_filter]
  refine congrArg (List.map Chunk.raw) (List.filter_congr ?_)
  intro chunk hmem
  rw [← Bool.decide_and, decide_eq_decide]
  constructor
  · rintro ⟨hpush, hstays⟩
    obtain ⟨hstart, hraw⟩ := (stays_push_iff h hdata hmem hpush).1 hstays
    exact ⟨hstart, hpush, hraw⟩
  · rintro ⟨hstart, hpush, hraw⟩
    exact ⟨hpush, (stays_push_iff h hdata hmem hpush).2 ⟨hstart, hraw⟩⟩

end Program

/-- **Which pushes of the signatures are in the script code.** The script code of a decoded script is decoded to a
script without separators. For each of the signatures, the pushes of it that this has are those of the script from byte
`start` on that are not written in the shortest form, in their order and as they are written. So it has no push of a
signature if and only if every such push from `start` on is written in the shortest form. -/
theorem signature_pushes_left (script : Bytes) (program : Program) (h : Program.decode script = .ok program)
    (start : Nat) (signatures : List Bytes) :
    ∃ result, Program.decode (program.scriptCode start signatures) = .ok result ∧
      .code .codeSeparator ∉ result.operations ∧
      (∀ signature ∈ signatures,
        result.pushesOf signature =
          (program.chunks.filter fun chunk =>
            start ≤ chunk.offset ∧ chunk.operation = .push signature ∧
              chunk.raw ≠ canonicalPush signature).map Chunk.raw) ∧
      ((∀ signature ∈ signatures, .push signature ∉ result.operations) ↔
        ∀ chunk ∈ program.chunks, start ≤ chunk.offset → ∀ signature ∈ signatures,
          chunk.operation = .push signature → chunk.raw = canonicalPush signature) := by
  obtain ⟨result, hresult, hform⟩ := Program.decode_scriptCode h start signatures
  refine ⟨result, hresult, ?_, fun signature hmem => Program.pushesOf_scriptCode h hform hmem, ?_⟩
  · intro hseparator
    obtain ⟨chunk, hmem, hoperation⟩ := List.mem_map.1 hseparator
    exact (Program.stays_of_form hform hmem).2.1 hoperation
  · have hnone : ∀ signature ∈ signatures, .push signature ∉ result.operations ↔
        ∀ chunk ∈ program.chunks, start ≤ chunk.offset → chunk.operation = .push signature →
          chunk.raw = canonicalPush signature := by
      intro signature hsignature
      rw [← Program.pushesOf_eq_nil_iff, Program.pushesOf_scriptCode h hform hsignature, List.map_eq_nil_iff,
        List.filter_eq_nil_iff]
      simp only [decide_eq_true_eq, not_and, not_not]
    constructor
    · intro h chunk hmem hstart signature hsignature
      exact (hnone signature hsignature).1 (h signature hsignature) chunk hmem hstart
    · intro h signature hsignature
      exact (hnone signature hsignature).2 fun chunk hmem hstart => h chunk hmem hstart signature hsignature

/-- of the four ways to push a signature, three stay -/
theorem signature_pushes_left_long :
    let script : Bytes :=
      [0x01, 0xaa, 0x4c, 0x01, 0xaa, 0x4d, 0x01, 0x00, 0xaa, 0x4e, 0x01, 0x00, 0x00, 0x00, 0xaa, 0xab]
    let program : Program :=
      ⟨[⟨0, [0x01, 0xaa], .push [0xaa]⟩, ⟨2, [0x4c, 0x01, 0xaa], .push [0xaa]⟩,
        ⟨5, [0x4d, 0x01, 0x00, 0xaa], .push [0xaa]⟩, ⟨9, [0x4e, 0x01, 0x00, 0x00, 0x00, 0xaa], .push [0xaa]⟩,
        ⟨15, [0xab], .code ⟨0xab⟩⟩]⟩
    Program.decode script = .ok program ∧
      ∃ result, Program.decode (program.scriptCode 0 [[0xaa]]) = .ok result ∧
        .code .codeSeparator ∉ result.operations ∧
        result.pushesOf [0xaa] =
          [[0x4c, 0x01, 0xaa], [0x4d, 0x01, 0x00, 0xaa], [0x4e, 0x01, 0x00, 0x00, 0x00, 0xaa]] := by
  intro script program
  have h : Program.decode script = .ok program := by decide +kernel
  obtain ⟨result, hresult, hseparator, hpushes, -⟩ := signature_pushes_left script program h 0 [[0xaa]]
  exact ⟨h, result, hresult, hseparator, (hpushes [0xaa] (by simp)).trans (by decide)⟩

/-- not every push of a signature is left out -/
theorem signature_push_not_left_out :
    ¬ ∀ (script : Bytes) (program : Program), Program.decode script = .ok program →
      ∀ (start : Nat) (signatures : List Bytes) (result : Program),
        Program.decode (program.scriptCode start signatures) = .ok result →
        ∀ data ∈ signatures, .push data ∉ result.operations := by
  intro h
  let script : Bytes := [0x4c, 0x02, 0xaa, 0xbb]
  let program : Program := ⟨[⟨0, [0x4c, 0x02, 0xaa, 0xbb], .push [0xaa, 0xbb]⟩]⟩
  have hdecode : Program.decode script = .ok program := by decide +kernel
  have hcode : program.scriptCode 0 [[0xaa, 0xbb]] = script := by decide
  exact h script program hdecode 0 [[0xaa, 0xbb]] program (hcode ▸ hdecode) [0xaa, 0xbb] (by simp) (by decide)

end BitcoinScript
