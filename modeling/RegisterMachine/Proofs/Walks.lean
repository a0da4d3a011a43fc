import Mathlib.Data.List.Chain
import RegisterMachine.Proofs.Records

/-!
# The walk over a buffer

What a buffer may hold is said here of its bytes alone: it is cut into chunks, of which each has the
length that its own first two bytes ask for. There is at most one way to do so, and the walk finds
it. Where there is none, the walk stops in front of the first bytes that begin with no chunk, and
says how many chunks it has passed and what it objects to. A walk over two buffers, one behind the
other, is a walk over the first and then over the second.
-/

namespace RegisterMachine

namespace Opcode

def lastTag : Nat := 82

theorem isSome_ofTag?_iff (tag : UInt8) : (ofTag? tag).isSome = true ↔ tag.toNat ≤ lastTag := by
  have hfixed : fixed.length = 18 := rfl
  unfold ofTag?
  split
  · next h =>
    simp only [maxOperands] at h
    simp only [Option.isSome_some, lastTag, true_iff]
    omega
  · next h =>
    simp only [maxOperands] at h
    simp only [isSome_getElem?, hfixed, maxOperands, lastTag]
    omega

theorem ofTag?_eq_none_iff (tag : UInt8) : ofTag? tag = none ↔ lastTag < tag.toNat := by
  rw [← Option.not_isSome_iff_eq_none, isSome_ofTag?_iff, Nat.not_le]

end Opcode

/-- The fault, so many instructions further on. -/
def Fault.delayed (count : Nat) (fault : Fault) : Fault :=
  { fault with instruction := fault.instruction.map (· + count) }

namespace Record

/-! ### Chunks of bytes -/

/-- The bytes of one record: an assigned tag, the number of filler bytes and then these, the payload
of the tag's opcode, and eight bytes for each of its operands. -/
inductive Chunk : List UInt8 → Prop
  | mk {tag padding : UInt8} {opcode : Opcode} {filler payload operands : List UInt8}
      (assigned : Opcode.ofTag? tag = some opcode)
      (length_filler : filler.length = padding.toNat)
      (length_payload : payload.length = opcode.payloadSize)
      (length_operands : operands.length = 8 * opcode.arity) :
      Chunk (tag :: padding :: (filler ++ (payload ++ operands)))

/-- The buffer is these chunks, one behind the other. -/
structure Cuts (buffer : List UInt8) (chunks : List (List UInt8)) : Prop where
  chunk : ∀ chunk ∈ chunks, Chunk chunk
  flatten : chunks.flatten = buffer

/-- There are bytes, but they do not begin with a chunk. -/
structure Stuck (bytes : List UInt8) : Prop where
  ne_nil : bytes ≠ []
  not_chunk : ∀ chunk, Chunk chunk → ¬ chunk <+: bytes

/-- What there is to object to in bytes that do not begin with a chunk: the tag, if a whole header
is there and has one that is not assigned, or else their number. -/
def objection : List UInt8 → Fault.Cause
  | tag :: _ :: _ => if Opcode.lastTag < tag.toNat then .invalidOpcode else .truncatedByteCode
  | _ => .truncatedByteCode

private theorem WellFormed.chunk {record : Record} (h : record.WellFormed) : Chunk record.toBytes :=
  .mk (Opcode.ofTag?_tag record.opcode) h.toNat_padding.symm h.length_payload
    (h.length_operands.trans (Nat.mul_comm _ _))

/-- A chunk is a record wherever it stands. -/
theorem Chunk.exists_record {chunk : List UInt8} (h : Chunk chunk) (offset : Nat) :
    ∃ record : Record, record.offset = offset ∧ record.WellFormed ∧ record.toBytes = chunk := by
  cases h with
  | @mk tag padding opcode filler payload operands hassigned hfiller hpayload hoperands =>
    refine ⟨{ offset, opcode, filler, payload, operands := ⟨operands⟩ }, rfl, ⟨?_, hpayload, ?_⟩,
      ?_⟩
    · exact Nat.lt_of_le_of_lt (Nat.le_of_eq hfiller) padding.toNat_lt
    · exact hoperands.trans (Nat.mul_comm _ _)
    · simp only [toBytes, body, Record.padding, hfiller, UInt8.ofNat_toNat,
        Opcode.ofTag?_eq_some_iff.mp hassigned]

private theorem exists_row {chunks : List (List UInt8)} (h : ∀ chunk ∈ chunks, Chunk chunk)
    (offset : Nat) :
    ∃ records, Row offset records ∧ records.map toBytes = chunks := by
  induction chunks generalizing offset with
  | nil => exact ⟨[], .nil offset, rfl⟩
  | cons chunk chunks ih =>
    obtain ⟨hchunk, hchunks⟩ := List.forall_mem_cons.mp h
    obtain ⟨record, rfl, hw, rfl⟩ := hchunk.exists_record offset
    obtain ⟨records, hrow, rfl⟩ := ih hchunks record.stop
    exact ⟨record :: records, .cons hw hrow, rfl⟩

private theorem Row.chunk {offset : Nat} {records : List Record} (h : Row offset records) :
    ∀ chunk ∈ records.map toBytes, Chunk chunk := by
  intro chunk hmem
  obtain ⟨record, hrecord, rfl⟩ := List.mem_map.mp hmem
  exact (h.wellFormed record hrecord).chunk

/-- A buffer is cut into the chunks that are its records, and in no other way. -/
theorem cuts_iff {index : Nat} {buffer : List UInt8} {records : List Record}
    (h : readAll index 0 buffer = .ok records) (chunks : List (List UInt8)) :
    Cuts buffer chunks ↔ chunks = records.map toBytes := by
  constructor
  · rintro ⟨hchunk, rfl⟩
    obtain ⟨others, hrow, rfl⟩ := exists_row hchunk 0
    rw [← List.flatMap_def] at h
    cases (hrow.readAll_eq index).symm.trans h
    rfl
  · rintro rfl
    obtain ⟨hrow, rfl⟩ := readAll_eq_ok_iff.mp h
    exact ⟨hrow.chunk, List.flatMap_def.symm⟩

theorem exists_records_iff {buffer : List UInt8} :
    (∃ records, readAll 0 0 buffer = .ok records) ↔ ∃ chunks, Cuts buffer chunks := by
  constructor
  · rintro ⟨records, h⟩
    exact ⟨_, (cuts_iff h _).mpr rfl⟩
  · rintro ⟨chunks, hchunk, rfl⟩
    obtain ⟨records, hrow, rfl⟩ := exists_row hchunk 0
    exact ⟨records, readAll_eq_ok_iff.mpr ⟨hrow, List.flatMap_def.symm⟩⟩

/-! ### Where the records stand -/

/-- The records follow each other without a gap from `start` to `stop`. -/
structure Fills (start stop : Nat) (records : List Record) : Prop where
  first : ∀ record, records.head? = some record → record.offset = start
  next : records.IsChain fun record follower => record.stop = follower.offset
  last : ∀ record, records.getLast? = some record → record.stop = stop

private theorem Row.fills {offset : Nat} {records : List Record} (h : Row offset records) :
    Fills offset (offset + (records.flatMap toBytes).length) records := by
  induction h with
  | nil offset => exact ⟨nofun, .nil, nofun⟩
  | @cons record rest hw hr ih =>
    rw [List.flatMap_cons, List.length_append, ← Nat.add_assoc, ← hw.stop_eq]
    refine ⟨?_, ?_, ?_⟩
    · rintro _ ⟨⟩
      rfl
    · refine List.isChain_cons.mpr ⟨?_, ih.next⟩
      intro follower hf
      exact (ih.first follower hf).symm
    · intro final hfinal
      cases rest with
      | nil =>
        cases hfinal
        simp
      | cons follower rest =>
        rw [List.getLast?_cons_cons] at hfinal
        exact ih.last final hfinal

/-! ### Where the walk stops -/

private theorem objection_of_read_error {index offset : Nat} {bytes : List UInt8} {fault : Fault}
    (h : read index offset bytes = .error fault) :
    fault = { cause := objection bytes, instruction := some index } := by
  unfold read at h
  split at h
  · next tag padding rest =>
    split at h
    · next hnone =>
      cases h
      rw [objection, if_pos ((Opcode.ofTag?_eq_none_iff tag).mp hnone)]
    · next opcode hsome =>
      have hassigned : ¬ Opcode.lastTag < tag.toNat := by
        rw [← Opcode.ofTag?_eq_none_iff, hsome]
        exact Option.some_ne_none opcode
      dsimp only at h
      split at h
      · cases h
        rw [objection, if_neg hassigned]
      · cases h
  · next hshort =>
    cases h
    cases bytes with
    | nil => rfl
    | cons tag rest =>
      cases rest with
      | nil => rfl
      | cons padding rest => exact absurd rfl (hshort tag padding rest)

private theorem stuck_of_read_error {index offset : Nat} {bytes : List UInt8} {fault : Fault}
    (hne : bytes ≠ []) (h : read index offset bytes = .error fault) : Stuck bytes where
  ne_nil := hne
  not_chunk := by
    rintro chunk hchunk ⟨rest, rfl⟩
    obtain ⟨record, rfl, hw, rfl⟩ := hchunk.exists_record offset
    cases h.symm.trans (read_toBytes_append hw index rest)

private theorem Stuck.read_eq {bytes : List UInt8} (h : Stuck bytes) (index offset : Nat) :
    read index offset bytes = .error { cause := objection bytes, instruction := some index } := by
  cases hread : read index offset bytes with
  | error fault => rw [objection_of_read_error hread]
  | ok found =>
    obtain ⟨-, hw, hbytes⟩ := read_eq_ok_iff.mp hread
    exact absurd ⟨found.2, hbytes.symm⟩ (h.not_chunk _ hw.chunk)

private theorem Stuck.readAll_eq {bytes : List UInt8} (h : Stuck bytes) (index offset : Nat) :
    readAll index offset bytes =
      .error { cause := objection bytes, instruction := some index } := by
  rw [readAll, if_neg (by simpa using h.ne_nil)]
  split
  · next fault hread =>
    cases hread.symm.trans (h.read_eq index offset)
    rfl
  · next hread => cases hread.symm.trans (h.read_eq index offset)

/-- The walk passes chunks and stops where it is stuck. -/
theorem readAll_of_stuck {chunks : List (List UInt8)} {rest : List UInt8}
    (hc : ∀ chunk ∈ chunks, Chunk chunk) (hs : Stuck rest) (index offset : Nat) :
    readAll index offset (chunks.flatten ++ rest) =
      .error { cause := objection rest, instruction := some (index + chunks.length) } := by
  induction chunks generalizing index offset with
  | nil => exact hs.readAll_eq index offset
  | cons chunk chunks ih =>
    obtain ⟨hchunk, hchunks⟩ := List.forall_mem_cons.mp hc
    obtain ⟨record, rfl, hw, rfl⟩ := hchunk.exists_record offset
    rw [List.flatten_cons, List.append_assoc, readAll_toBytes_append hw, ih hchunks,
      List.length_cons, Nat.add_assoc, Nat.add_comm 1]
    rfl

/-- A walk is refused for what stands behind the chunks that it has passed. -/
theorem readAll_eq_error_iff {index offset : Nat} {buffer : List UInt8} {fault : Fault} :
    readAll index offset buffer = .error fault ↔
      ∃ (chunks : List (List UInt8)) (rest : List UInt8), (∀ chunk ∈ chunks, Chunk chunk) ∧
        buffer = chunks.flatten ++ rest ∧ Stuck rest ∧
        fault = { cause := objection rest, instruction := some (index + chunks.length) } := by
  constructor
  · intro h
    fun_induction readAll index offset buffer with
    | case1 index offset bytes he => cases h
    | case2 index offset bytes he other hread =>
      cases h
      have hne : bytes ≠ [] := fun hnil => he (List.isEmpty_iff.mpr hnil)
      exact ⟨[], bytes, List.forall_mem_nil _, rfl, stuck_of_read_error hne hread,
        objection_of_read_error hread⟩
    | case3 index offset bytes he record tail hread hlt ih =>
      obtain ⟨-, hw, rfl⟩ := read_eq_ok_iff.mp hread
      have htail : readAll (index + 1) record.stop tail = .error fault := by
        cases ht : readAll (index + 1) record.stop tail with
        | ok records =>
          rw [ht] at h
          cases h
        | error other =>
          rw [ht] at h
          exact h
      obtain ⟨chunks, rest, hchunks, rfl, hstuck, rfl⟩ := ih htail
      refine ⟨record.toBytes :: chunks, rest, List.forall_mem_cons.mpr ⟨hw.chunk, hchunks⟩, ?_,
        hstuck, ?_⟩
      · rw [List.flatten_cons, List.append_assoc]
      · rw [List.length_cons, Nat.add_assoc, Nat.add_comm 1]
  · rintro ⟨chunks, rest, hchunks, rfl, hstuck, rfl⟩
    exact readAll_of_stuck hchunks hstuck index offset

/-! ### One buffer behind the other -/

/-- The record, so many bytes further on. -/
def moved (size : Nat) (record : Record) : Record :=
  { record with offset := record.offset + size }

private theorem stop_moved (size : Nat) (record : Record) :
    (record.moved size).stop = record.stop + size :=
  Nat.add_right_comm record.offset size record.size

private theorem WellFormed.moved {record : Record} (h : record.WellFormed) (size : Nat) :
    (record.moved size).WellFormed := ⟨h.padding_lt, h.length_payload, h.length_operands⟩

private theorem Row.moved {offset : Nat} {records : List Record} (h : Row offset records)
    (size : Nat) :
    Row (offset + size) (records.map (Record.moved size)) := by
  induction h with
  | nil offset => exact .nil (offset + size)
  | @cons record rest hw hr ih =>
    rw [← stop_moved] at ih
    exact .cons (hw.moved size) ih

private theorem flatMap_toBytes_moved (size : Nat) (records : List Record) :
    (records.map (Record.moved size)).flatMap toBytes = records.flatMap toBytes := by
  rw [List.flatMap_map]
  rfl

/-- A walk that comes to the end of one buffer goes on into the next, where it finds what a walk
over that alone would find. -/
theorem readAll_append {buffer : List UInt8} {records : List Record}
    (h : readAll 0 0 buffer = .ok records) (more : List UInt8) :
    readAll 0 0 (buffer ++ more) =
      ((readAll 0 0 more).map fun others =>
        records ++ others.map (Record.moved buffer.length)).mapError
        (Fault.delayed records.length) := by
  obtain ⟨hrow, rfl⟩ := readAll_eq_ok_iff.mp h
  cases hmore : readAll 0 0 more with
  | ok others =>
    obtain ⟨hothers, rfl⟩ := readAll_eq_ok_iff.mp hmore
    refine readAll_eq_ok_iff.mpr ⟨hrow.append (hothers.moved _), ?_⟩
    rw [List.flatMap_append, flatMap_toBytes_moved]
  | error fault =>
    obtain ⟨chunks, rest, hchunks, rfl, hstuck, rfl⟩ := readAll_eq_error_iff.mp hmore
    refine readAll_eq_error_iff.mpr ⟨records.map toBytes ++ chunks, rest, ?_, ?_, hstuck, ?_⟩
    · exact List.forall_mem_append.mpr ⟨hrow.chunk, hchunks⟩
    · rw [List.flatten_append, List.append_assoc, List.flatMap_def]
    · simp only [Fault.delayed, Option.map_some, List.length_append, List.length_map,
        Nat.add_comm records.length, Nat.add_assoc]

end Record

namespace Code

open Record

/-- The tags are those up to the last one. A buffer has records exactly if it can be cut into
chunks; they are then the only such cut, from its beginning to its end without a gap. If it cannot,
the fault names the number of chunks in front of the first bytes that begin with none, and objects
to these. Bytes that are added behind records are read as if they stood alone. -/
theorem records_cut_buffer (code : Code) :
    (∀ tag : UInt8, (Opcode.ofTag? tag).isSome = true ↔ tag.toNat ≤ 82) ∧
    ((∃ records, code.records = .ok records) ↔ ∃ chunks, Cuts code.buffer chunks) ∧
    (∀ records, code.records = .ok records →
      (∀ chunks, Cuts code.buffer chunks ↔ chunks = records.map toBytes) ∧
      (∀ record ∈ records, record.WellFormed) ∧ Fills 0 code.buffer.length records) ∧
    (∀ fault, code.records = .error fault ↔
      ∃ (chunks : List (List UInt8)) (rest : List UInt8), (∀ chunk ∈ chunks, Chunk chunk) ∧
        code.buffer = chunks.flatten ++ rest ∧ Stuck rest ∧
        fault = { cause := objection rest, instruction := some chunks.length }) ∧
    ∀ records more, code.records = .ok records →
      Code.records { code with buffer := code.buffer ++ more } =
        ((Code.records { code with buffer := more }).map fun others =>
          records ++ others.map (Record.moved code.buffer.length)).mapError
          (Fault.delayed records.length) := by
  refine ⟨Opcode.isSome_ofTag?_iff, exists_records_iff, ?_, ?_,
    fun _ more h => readAll_append h more⟩
  · intro records h
    obtain ⟨hrow, hbuffer⟩ := readAll_eq_ok_iff.mp h
    have hfills := hrow.fills
    rw [← hbuffer, Nat.zero_add] at hfills
    exact ⟨cuts_iff h, hrow.wellFormed, hfills⟩
  · intro fault
    rw [Code.records, readAll_eq_error_iff]
    simp only [Nat.zero_add]

/-- Two records fill a buffer, the first with two filler bytes. A lone byte behind them is a record
cut short, whatever it is; with another one it is a tag that is not assigned. -/
theorem records_cut_buffer_tail :
    let code : Code := { buffer := [69, 2, 7, 7, 0, 0, 1, 0, 0, 0, 0, 0, 80, 0], count := 2 }
    ∃ records, code.records = .ok records ∧ Fills 0 14 records ∧
      records.map toBytes = [[69, 2, 7, 7, 0, 0, 1, 0, 0, 0, 0, 0], [80, 0]] ∧
      Code.records { code with buffer := code.buffer ++ [83] } =
        .error { cause := .truncatedByteCode, instruction := some 2 } ∧
      Code.records { code with buffer := code.buffer ++ [83, 0] } =
        .error { cause := .invalidOpcode, instruction := some 2 } := by
  intro code
  have hcuts : Cuts code.buffer [[69, 2, 7, 7, 0, 0, 1, 0, 0, 0, 0, 0], [80, 0]] := by
    refine ⟨List.forall_mem_cons.mpr ⟨?_, List.forall_mem_singleton.mpr ?_⟩, rfl⟩
    · exact @Chunk.mk 69 2 .increment [7, 7] [0, 0, 1, 0, 0, 0, 0, 0] [] rfl rfl rfl rfl
    · exact @Chunk.mk 80 0 .exit [] [] [] rfl rfl rfl rfl
  obtain ⟨-, haccepts, hrecords, -, happend⟩ := records_cut_buffer code
  obtain ⟨records, h⟩ := haccepts.mpr ⟨_, hcuts⟩
  obtain ⟨hunique, -, hfills⟩ := hrecords records h
  have hbytes := (hunique _).mp hcuts
  have hlength : records.length = 2 := by
    rw [← List.length_map toBytes, ← hbytes]
    rfl
  have hlone : Code.records { code with buffer := [83] } =
      .error { cause := .truncatedByteCode, instruction := some 0 } := by decide +kernel
  have hheader : Code.records { code with buffer := [83, 0] } =
      .error { cause := .invalidOpcode, instruction := some 0 } := by decide +kernel
  refine ⟨records, h, hfills, hbytes.symm, ?_, ?_⟩
  · rw [happend records [83] h, hlone, hlength]
    rfl
  · rw [happend records [83, 0] h, hheader, hlength]
    rfl

end Code

end RegisterMachine
