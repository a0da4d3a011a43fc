import Mathlib.Data.List.Basic
import RegisterMachine.Code.Image
import RegisterMachine.Proofs.Linking
import RegisterMachine.Proofs.Records

/-!
# Images and what they spell

`Image.Spells` describes the saved form of code without reading or writing it. Every reader of the
loader accepts exactly the bytes that its value is spelled with, whatever follows them, so the
writer and the loader meet in this description from both sides.
-/

namespace RegisterMachine

namespace LittleEndian

theorem ofHalf_half {bytes : List UInt8} (h : bytes.length = 2) : ofHalf (half bytes) = bytes := by
  have ht : bytes.take 2 = bytes := List.take_of_length_le (Nat.le_of_eq h)
  have hlt : toNat bytes < UInt16.size := by
    have hb := toNat_lt bytes
    rwa [h] at hb
  rw [ofHalf, half, ht, UInt16.toNat_ofNat_of_lt' hlt, ← h, ofNat_toNat]

theorem ofWord_word {bytes : List UInt8} (h : bytes.length = 4) : ofWord (word bytes) = bytes := by
  have ht : bytes.take 4 = bytes := List.take_of_length_le (Nat.le_of_eq h)
  have hlt : toNat bytes < UInt32.size := by
    have hb := toNat_lt bytes
    rwa [h] at hb
  rw [ofWord, word, ht, UInt32.toNat_ofNat_of_lt' hlt, ← h, ofNat_toNat]

private theorem ofHalf_ofNat {n : Nat} (h : n < UInt16.size) :
    ofHalf (UInt16.ofNat n) = ofNat 2 n := by
  rw [ofHalf, UInt16.toNat_ofNat_of_lt' h]

theorem ofWord_ofNat {n : Nat} (h : n < UInt32.size) : ofWord (UInt32.ofNat n) = ofNat 4 n := by
  rw [ofWord, UInt32.toNat_ofNat_of_lt' h]

end LittleEndian

namespace Image

open LittleEndian

/-! ### Names -/

/-- Bytes are a name exactly when they are the bytes of that name. -/
theorem nameOfBytes?_eq_some_iff {bytes : List UInt8} {name : String} :
    nameOfBytes? bytes = some name ↔ nameBytes name = bytes := by
  unfold nameOfBytes? nameBytes String.fromUTF8?
  constructor
  · intro h
    split at h
    · cases h
      simp [String.fromUTF8]
    · cases h
  · rintro rfl
    have hv : (ByteArray.mk name.toUTF8.data.toList.toArray).IsValidUTF8 := by
      simpa using name.isValidUTF8
    rw [dif_pos hv]
    simp [String.fromUTF8]

/-! ### The saved form -/

/-- The parts of an entry fit their fields. -/
structure Fits (entry : Entry) : Prop where
  name_lt : (nameBytes entry.name).length < UInt16.size
  instruction_lt : entry.instruction < UInt32.size

/-- An entry whose parts fit their fields. -/
def entryBytes (entry : Entry) : List UInt8 :=
  ofNat 2 (nameBytes entry.name).length ++ nameBytes entry.name ++ ofNat 4 entry.instruction

/-- `bytes` are the image of code with these parts and with `reserved` in the byte that no part
stands in. -/
structure Spells (reserved : UInt8) (alignment : Nat) (buffer : List UInt8) (entries : List Entry)
    (bytes : List UInt8) : Prop where
  size_lt : buffer.length < UInt32.size
  entries_lt : entries.length < UInt32.size
  fits : ∀ entry ∈ entries, Fits entry
  eq : bytes = magic ++ (ofHalf formatVersion ++ ([UInt8.ofNat alignment, reserved] ++
    (ofWord (Checksum.crc32 buffer) ++ (ofNat 4 buffer.length ++ (buffer ++
    (ofNat 4 entries.length ++ entries.flatMap entryBytes))))))

theorem wordOf_eq_ok_iff {n : Nat} {cause : Fault.Cause} {note : String} {bytes : List UInt8} :
    wordOf n cause note = .ok bytes ↔ n < UInt32.size ∧ bytes = ofNat 4 n := by
  unfold wordOf
  split
  · next h => simp [h, eq_comm]
  · next h => simp [h]

theorem halfOf_eq_ok_iff {n : Nat} {cause : Fault.Cause} {note : String} {bytes : List UInt8} :
    halfOf n cause note = .ok bytes ↔ n < UInt16.size ∧ bytes = ofNat 2 n := by
  unfold halfOf
  split
  · next h => simp [h, eq_comm]
  · next h => simp [h]

theorem ofEntry_eq_ok_iff {entry : Entry} {bytes : List UInt8} :
    ofEntry entry = .ok bytes ↔ Fits entry ∧ bytes = entryBytes entry := by
  simp only [ofEntry, Outcome.bind_eq_ok, Outcome.pure_eq_ok, halfOf_eq_ok_iff, wordOf_eq_ok_iff]
  constructor
  · rintro ⟨_, ⟨hn, rfl⟩, _, ⟨hi, rfl⟩, rfl⟩
    exact ⟨⟨hn, hi⟩, rfl⟩
  · rintro ⟨hf, rfl⟩
    exact ⟨_, ⟨hf.name_lt, rfl⟩, _, ⟨hf.instruction_lt, rfl⟩, rfl⟩

theorem mapM_ofEntry_eq_ok_iff {entries : List Entry} {table : List (List UInt8)} :
    entries.mapM ofEntry = .ok table ↔
      (∀ entry ∈ entries, Fits entry) ∧ table = entries.map entryBytes := by
  induction entries generalizing table with
  | nil =>
    rw [List.mapM_nil, Outcome.pure_eq_ok]
    simp [eq_comm]
  | cons entry entries ih =>
    simp only [List.mapM_cons, Outcome.bind_eq_ok, Outcome.pure_eq_ok, ofEntry_eq_ok_iff, ih,
      List.forall_mem_cons, List.map_cons]
    constructor
    · rintro ⟨_, ⟨he, rfl⟩, _, ⟨hes, rfl⟩, rfl⟩
      exact ⟨⟨he, hes⟩, rfl⟩
    · rintro ⟨⟨he, hes⟩, rfl⟩
      exact ⟨_, ⟨he, rfl⟩, _, ⟨hes, rfl⟩, rfl⟩

/-- Saving writes the image with a zero in the reserved byte. -/
theorem save_eq_ok_iff {code : Code} {bytes : List UInt8} :
    code.save = .ok bytes ↔ Spells 0 code.alignment code.buffer code.entries bytes := by
  simp only [Code.save, Outcome.bind_eq_ok, Outcome.pure_eq_ok, wordOf_eq_ok_iff,
    mapM_ofEntry_eq_ok_iff, Code.size, List.append_assoc]
  constructor
  · rintro ⟨_, ⟨hs, rfl⟩, _, ⟨hc, rfl⟩, _, ⟨hf, rfl⟩, rfl⟩
    exact ⟨hs, hc, hf, by rw [List.flatMap_def]⟩
  · rintro ⟨hs, hc, hf, rfl⟩
    exact ⟨_, ⟨hs, rfl⟩, _, ⟨hc, rfl⟩, _, ⟨hf, rfl⟩, by rw [List.flatMap_def]⟩

/-! ### Refusals -/

private theorem wordOf_eq_error {n : Nat} {cause : Fault.Cause} {note : String} {fault : Fault}
    (h : wordOf n cause note = .error fault) : UInt32.size ≤ n ∧ fault = { cause, note } := by
  unfold wordOf at h
  split at h
  · cases h
  · next hn =>
    cases h
    exact ⟨Nat.le_of_not_lt hn, rfl⟩

private theorem halfOf_eq_error {n : Nat} {cause : Fault.Cause} {note : String} {fault : Fault}
    (h : halfOf n cause note = .error fault) : UInt16.size ≤ n ∧ fault = { cause, note } := by
  unfold halfOf at h
  split at h
  · cases h
  · next hn =>
    cases h
    exact ⟨Nat.le_of_not_lt hn, rfl⟩

private theorem ofEntry_eq_error {entry : Entry} {fault : Fault}
    (h : ofEntry entry = .error fault) :
    (UInt16.size ≤ (nameBytes entry.name).length ∧
        fault = { cause := .malformedEntry, note := "NAME TOO LONG" }) ∨
      UInt32.size ≤ entry.instruction := by
  rcases Outcome.bind_eq_error.mp h with h | ⟨size, -, h⟩
  · exact .inl (halfOf_eq_error h)
  · rcases Outcome.bind_eq_error.mp h with h | ⟨instruction, -, h⟩
    · exact .inr (wordOf_eq_error h).1
    · cases h

/-- Saving is refused for a buffer, a table, a name or an index that its field cannot hold. -/
theorem save_eq_error {code : Code} {fault : Fault} (h : code.save = .error fault) :
    (UInt32.size ≤ code.size ∧
        fault = { cause := .truncatedByteCode, note := "BUFFER TOO LARGE" }) ∨
      (UInt32.size ≤ code.entries.length ∧
        fault = { cause := .malformedEntry, note := "TOO MANY ENTRIES" }) ∨
      (∃ entry ∈ code.entries, UInt16.size ≤ (nameBytes entry.name).length ∧
        fault = { cause := .malformedEntry, note := "NAME TOO LONG" }) ∨
      (code.size < UInt32.size ∧ ∃ entry ∈ code.entries, UInt32.size ≤ entry.instruction) := by
  rcases Outcome.bind_eq_error.mp h with h | ⟨size, hs, h⟩
  · exact .inl (wordOf_eq_error h)
  · rcases Outcome.bind_eq_error.mp h with h | ⟨count, -, h⟩
    · exact .inr (.inl (wordOf_eq_error h))
    · rcases Outcome.bind_eq_error.mp h with h | ⟨table, -, h⟩
      · obtain ⟨entry, hm, he⟩ := Outcome.mapM_eq_error h
        rcases ofEntry_eq_error he with hname | hindex
        · exact .inr (.inr (.inl ⟨entry, hm, hname⟩))
        · exact .inr (.inr (.inr ⟨(wordOf_eq_ok_iff.mp hs).1, entry, hm, hindex⟩))
      · cases h

/-! ### Readers -/

section Readers

variable {α β : Type} {bytes rest : List UInt8}

theorem bind_eq_ok_iff {x : Reader α} {f : α → Reader β} {b : β} :
    (x >>= f) bytes = .ok (b, rest) ↔
      ∃ a mid, x bytes = .ok (a, mid) ∧ f a mid = .ok (b, rest) := by
  change (x bytes >>= fun p => f p.1 p.2) = .ok (b, rest) ↔ _
  rw [Outcome.bind_eq_ok]
  exact Prod.exists

theorem map_eq_ok_iff {x : Reader α} {f : α → β} {b : β} :
    (f <$> x) bytes = .ok (b, rest) ↔ ∃ a, x bytes = .ok (a, rest) ∧ f a = b := by
  change (x bytes >>= fun p => pure (f p.1, p.2)) = .ok (b, rest) ↔ _
  simp only [Outcome.bind_eq_ok, Outcome.pure_eq_ok, Prod.exists, Prod.mk.injEq]
  constructor
  · rintro ⟨a, mid, hx, hf, rfl⟩
    exact ⟨a, hx, hf⟩
  · rintro ⟨a, hx, hf⟩
    exact ⟨a, rest, hx, hf, rfl⟩

theorem pure_eq_ok_iff {a b : α} :
    (pure a : Reader α) bytes = .ok (b, rest) ↔ a = b ∧ bytes = rest := by
  change (pure (a, bytes) : Except Fault _) = .ok (b, rest) ↔ _
  rw [Outcome.pure_eq_ok, Prod.mk.injEq]

theorem get_eq_ok_iff {state : List UInt8} :
    (get : Reader (List UInt8)) bytes = .ok (state, rest) ↔ bytes = state ∧ bytes = rest := by
  change (pure (bytes, bytes) : Except Fault _) = .ok (state, rest) ↔ _
  rw [Outcome.pure_eq_ok, Prod.mk.injEq]

theorem require_eq_ok_iff {condition : Bool} {cause : Fault.Cause} {note : String} {u : Unit} :
    require condition cause note bytes = .ok (u, rest) ↔ condition = true ∧ bytes = rest := by
  unfold require
  split
  · next h => simp [h, pure_eq_ok_iff]
  · next h =>
    constructor
    · intro hr
      cases hr
    · rintro ⟨hc, -⟩
      exact absurd hc h

theorem take_eq_ok_iff {n : Nat} {front : List UInt8} :
    take n bytes = .ok (front, rest) ↔ front.length = n ∧ bytes = front ++ rest := by
  unfold take
  dsimp only
  constructor
  · intro h
    split at h
    · cases h
    · next hlen =>
      cases h
      rw [List.length_take] at hlen ⊢
      exact ⟨by omega, (List.take_append_drop n bytes).symm⟩
  · rintro ⟨rfl, rfl⟩
    simp

theorem takeHalf_eq_ok_iff {half : UInt16} :
    takeHalf bytes = .ok (half, rest) ↔ bytes = ofHalf half ++ rest := by
  simp only [takeHalf, map_eq_ok_iff, take_eq_ok_iff]
  constructor
  · rintro ⟨front, ⟨hl, rfl⟩, rfl⟩
    rw [ofHalf_half hl]
  · rintro rfl
    refine ⟨ofHalf half, ⟨length_ofHalf half, rfl⟩, ?_⟩
    simpa using half_ofHalf_append half []

theorem takeWord_eq_ok_iff {word : UInt32} :
    takeWord bytes = .ok (word, rest) ↔ bytes = ofWord word ++ rest := by
  simp only [takeWord, map_eq_ok_iff, take_eq_ok_iff]
  constructor
  · rintro ⟨front, ⟨hl, rfl⟩, rfl⟩
    rw [ofWord_word hl]
  · rintro rfl
    refine ⟨ofWord word, ⟨length_ofWord word, rfl⟩, ?_⟩
    simpa using word_ofWord_append word []

theorem takeEntry_eq_ok_iff {entry : Entry} :
    takeEntry bytes = .ok (entry, rest) ↔ Fits entry ∧ bytes = entryBytes entry ++ rest := by
  simp only [takeEntry, bind_eq_ok_iff, takeHalf_eq_ok_iff, take_eq_ok_iff]
  constructor
  · rintro ⟨size, _, rfl, spelled, _, ⟨hl, rfl⟩, h⟩
    cases hn : nameOfBytes? spelled with
    | none =>
      rw [hn] at h
      cases h
    | some name =>
      rw [hn] at h
      rw [nameOfBytes?_eq_some_iff] at hn
      subst hn
      simp only [bind_eq_ok_iff, takeWord_eq_ok_iff, pure_eq_ok_iff] at h
      obtain ⟨instruction, _, rfl, rfl, rfl⟩ := h
      refine ⟨⟨hl ▸ size.toNat_lt, instruction.toNat_lt⟩, ?_⟩
      simp only [entryBytes, hl, ofHalf, ofWord, List.append_assoc]
  · rintro ⟨hf, rfl⟩
    let tail := ofNat 4 entry.instruction ++ rest
    refine ⟨UInt16.ofNat (nameBytes entry.name).length, nameBytes entry.name ++ tail, ?_,
      nameBytes entry.name, tail, ⟨?_, rfl⟩, ?_⟩
    · rw [ofHalf_ofNat hf.name_lt, entryBytes, List.append_assoc, List.append_assoc]
    · rw [UInt16.toNat_ofNat_of_lt' hf.name_lt]
    · simp only [nameOfBytes?_eq_some_iff.mpr rfl, bind_eq_ok_iff, takeWord_eq_ok_iff,
        pure_eq_ok_iff]
      refine ⟨UInt32.ofNat entry.instruction, rest, ?_, ?_, rfl⟩
      · rw [ofWord_ofNat hf.instruction_lt]
      · rw [UInt32.toNat_ofNat_of_lt' hf.instruction_lt]

theorem takeEntries_eq_ok_iff {n : Nat} {entries : List Entry} :
    takeEntries n bytes = .ok (entries, rest) ↔
      entries.length = n ∧ (∀ entry ∈ entries, Fits entry) ∧
        bytes = entries.flatMap entryBytes ++ rest := by
  induction n generalizing bytes rest entries with
  | zero =>
    simp only [takeEntries, pure_eq_ok_iff, List.length_eq_zero_iff]
    constructor
    · rintro ⟨rfl, rfl⟩
      simp
    · rintro ⟨rfl, -, rfl⟩
      simp
  | succ n ih =>
    simp only [takeEntries, bind_eq_ok_iff, takeEntry_eq_ok_iff, pure_eq_ok_iff, ih]
    constructor
    · rintro ⟨entry, _, ⟨hf, rfl⟩, others, _, ⟨rfl, hfs, rfl⟩, rfl, rfl⟩
      refine ⟨rfl, List.forall_mem_cons.mpr ⟨hf, hfs⟩, ?_⟩
      rw [List.flatMap_cons, List.append_assoc]
    · rintro ⟨hl, hfs, rfl⟩
      cases entries with
      | nil => cases hl
      | cons entry others =>
        obtain ⟨hf, hfs⟩ := List.forall_mem_cons.mp hfs
        refine ⟨entry, _, ⟨hf, ?_⟩, others, rest, ⟨Nat.succ.inj hl, hfs, rfl⟩, rfl, rfl⟩
        rw [List.flatMap_cons, List.append_assoc]

/-- The front of an image, up to its alignment. -/
def takeHeader : Reader Nat := do
  require ((← take magic.length) == magic) .badMagic
  require ((← takeHalf) == formatVersion) .unsupportedVersion
  let alignment := ((← take 2).getD 0 0).toNat
  require (Code.isAlignment alignment) .invalidAlignment
  return alignment

/-- The middle of an image, which is the buffer behind its checksum and its length. -/
def takeBuffer : Reader (List UInt8) := do
  let checksum ← takeWord
  let size ← takeWord
  let buffer ← take size.toNat
  require (Checksum.crc32 buffer == checksum) .checksumMismatch
  return buffer

/-- The back of an image, which is the table of entries. -/
def takeTable : Reader (List Entry) := do
  let count ← takeWord
  let entries ← takeEntries count.toNat
  require (← get).isEmpty .truncatedByteCode "TRAILING BYTES"
  return entries

theorem takeParts_eq :
    takeParts = do
      let alignment ← takeHeader
      let buffer ← takeBuffer
      let entries ← takeTable
      return (alignment, buffer, entries) := by
  simp only [takeParts, takeHeader, takeBuffer, takeTable, bind_assoc, pure_bind]

theorem takeHeader_eq_ok_iff {alignment : Nat} :
    takeHeader bytes = .ok (alignment, rest) ↔
      Code.isAlignment alignment = true ∧ ∃ reserved, bytes =
        magic ++ (ofHalf formatVersion ++ ([UInt8.ofNat alignment, reserved] ++ rest)) := by
  simp only [takeHeader, bind_eq_ok_iff, require_eq_ok_iff, takeHalf_eq_ok_iff, pure_eq_ok_iff,
    take_eq_ok_iff, beq_iff_eq]
  constructor
  · rintro ⟨_, _, ⟨-, rfl⟩, _, _, ⟨rfl, rfl⟩, _, _, rfl, _, _, ⟨rfl, rfl⟩, pair, _, ⟨hp, rfl⟩, _, _,
      ⟨ha, rfl⟩, rfl, rfl⟩
    obtain ⟨first, reserved, rfl⟩ := List.length_eq_two.mp hp
    exact ⟨ha, reserved, by simp⟩
  · rintro ⟨ha, reserved, rfl⟩
    have hlt : alignment < UInt8.size :=
      Nat.lt_of_le_of_lt (Code.le_of_isAlignment ha) (by decide)
    have hn : (UInt8.ofNat alignment).toNat = alignment := UInt8.toNat_ofNat_of_lt' hlt
    refine ⟨magic, _, ⟨rfl, rfl⟩, (), _, ⟨rfl, rfl⟩, formatVersion, _, rfl, (), _, ⟨rfl, rfl⟩,
      [UInt8.ofNat alignment, reserved], rest, ⟨rfl, rfl⟩, (), rest, ⟨?_, rfl⟩, ?_, rfl⟩
    · simpa [hn] using ha
    · simpa using hn

theorem takeBuffer_eq_ok_iff {buffer : List UInt8} :
    takeBuffer bytes = .ok (buffer, rest) ↔
      buffer.length < UInt32.size ∧ bytes =
        ofWord (Checksum.crc32 buffer) ++ (ofNat 4 buffer.length ++ (buffer ++ rest)) := by
  simp only [takeBuffer, bind_eq_ok_iff, require_eq_ok_iff, takeWord_eq_ok_iff, pure_eq_ok_iff,
    take_eq_ok_iff, beq_iff_eq]
  constructor
  · rintro ⟨checksum, _, rfl, size, _, rfl, buffer, _, ⟨hb, rfl⟩, _, _, ⟨rfl, rfl⟩, rfl, rfl⟩
    exact ⟨hb ▸ size.toNat_lt, by rw [hb]; rfl⟩
  · rintro ⟨hlt, rfl⟩
    refine ⟨Checksum.crc32 buffer, _, rfl, UInt32.ofNat buffer.length, buffer ++ rest, ?_, buffer,
      rest, ⟨?_, rfl⟩, (), rest, ⟨rfl, rfl⟩, rfl, rfl⟩
    · rw [ofWord_ofNat hlt]
    · rw [UInt32.toNat_ofNat_of_lt' hlt]

theorem takeTable_eq_ok_iff {entries : List Entry} :
    takeTable bytes = .ok (entries, rest) ↔
      rest = [] ∧ entries.length < UInt32.size ∧ (∀ entry ∈ entries, Fits entry) ∧
        bytes = ofNat 4 entries.length ++ entries.flatMap entryBytes := by
  simp only [takeTable, bind_eq_ok_iff, require_eq_ok_iff, takeWord_eq_ok_iff, pure_eq_ok_iff,
    takeEntries_eq_ok_iff, get_eq_ok_iff, List.isEmpty_iff]
  constructor
  · rintro ⟨count, _, rfl, entries, _, ⟨hn, hf, rfl⟩, _, _, ⟨rfl, rfl⟩, _, _, ⟨rfl, rfl⟩, rfl, rfl⟩
    refine ⟨rfl, hn ▸ count.toNat_lt, hf, ?_⟩
    rw [hn, List.append_nil]
    rfl
  · rintro ⟨rfl, hlt, hf, rfl⟩
    refine ⟨UInt32.ofNat entries.length, entries.flatMap entryBytes, ?_, entries, [], ⟨?_, hf, ?_⟩,
      [], [], ⟨rfl, rfl⟩, (), [], ⟨rfl, rfl⟩, rfl, rfl⟩
    · rw [ofWord_ofNat hlt]
    · rw [UInt32.toNat_ofNat_of_lt' hlt]
    · rw [List.append_nil]

/-- The loader takes an image apart into just the parts that it spells. -/
theorem takeParts_eq_ok_iff {alignment : Nat} {buffer : List UInt8} {entries : List Entry} :
    takeParts bytes = .ok ((alignment, buffer, entries), rest) ↔
      rest = [] ∧ Code.isAlignment alignment = true ∧
        ∃ reserved, Spells reserved alignment buffer entries bytes := by
  simp only [takeParts_eq, bind_eq_ok_iff, pure_eq_ok_iff, takeHeader_eq_ok_iff,
    takeBuffer_eq_ok_iff, takeTable_eq_ok_iff, Prod.mk.injEq]
  constructor
  · rintro ⟨alignment, _, ⟨ha, reserved, rfl⟩, buffer, _, ⟨hb, rfl⟩, entries, _,
      ⟨rfl, he, hf, rfl⟩, ⟨rfl, rfl, rfl⟩, rfl⟩
    exact ⟨rfl, ha, reserved, hb, he, hf, rfl⟩
  · rintro ⟨rfl, ha, reserved, hb, he, hf, rfl⟩
    exact ⟨alignment, _, ⟨ha, reserved, rfl⟩, buffer, _, ⟨hb, rfl⟩, entries, [],
      ⟨rfl, he, hf, rfl⟩, ⟨rfl, rfl, rfl⟩, rfl⟩

end Readers

/-! ### The reserved byte -/

/-- The reserved byte is the eighth, and no part of the code stands in it. -/
theorem Spells.set_reserved {reserved : UInt8} {alignment : Nat} {buffer : List UInt8}
    {entries : List Entry} {bytes : List UInt8} (h : Spells reserved alignment buffer entries bytes)
    (other : UInt8) :
    7 < bytes.length ∧ Spells other alignment buffer entries (bytes.set 7 other) := by
  obtain ⟨hs, he, hf, rfl⟩ := h
  have hm : magic.length = 4 := rfl
  refine ⟨?_, hs, he, hf, rfl⟩
  simp only [List.length_append, hm, length_ofHalf, List.length_cons]
  omega

/-- An image is loaded when the code that it spells has its records counted and passes the
checks. -/
theorem load_eq_ok_iff {bytes : List UInt8} {code : Code} :
    Code.load bytes = .ok code ↔
      Code.isAlignment code.alignment = true ∧
      (∃ reserved, Spells reserved code.alignment code.buffer code.entries bytes) ∧
      (∃ records, code.records = .ok records ∧ code.count = records.length) ∧
      ∃ linked, code.finalize = .ok linked := by
  simp only [Code.load, Outcome.bind_eq_ok, Outcome.pure_eq_ok, Prod.exists]
  constructor
  · rintro ⟨alignment, buffer, entries, rest, hp, records, hr, linked, hl, rfl⟩
    obtain ⟨-, ha, hs⟩ := takeParts_eq_ok_iff.mp hp
    exact ⟨ha, hs, ⟨records, hr, rfl⟩, linked, hl⟩
  · rintro ⟨ha, hs, ⟨records, hr, hc⟩, linked, hl⟩
    have hcode : code =
        { buffer := code.buffer, count := records.length,
          alignment := code.alignment, entries := code.entries } := by
      rw [← hc, ← (Code.finalize_eq_ok_iff.mp hl).1]
    refine ⟨code.alignment, code.buffer, code.entries, [], takeParts_eq_ok_iff.mpr ⟨rfl, ha, hs⟩,
      records, hr, linked, ?_, hcode.symm⟩
    rw [← hcode]
    exact hl

end Image

namespace Code

open Image

/-- Saving what was loaded gives the image back, with a zero in its reserved byte. Two images of the
same code differ in that byte at most. -/
theorem save_of_load {bytes : List UInt8} {code : Code} (h : load bytes = .ok code) :
    (7 < bytes.length ∧ code.save = .ok (bytes.set 7 0)) ∧
      ∀ other, load other = .ok code → ∀ index, index ≠ 7 → other[index]? = bytes[index]? := by
  have saved {image : List UInt8} (hi : load image = .ok code) :
      7 < image.length ∧ code.save = .ok (image.set 7 0) := by
    obtain ⟨-, ⟨reserved, hs⟩, -⟩ := load_eq_ok_iff.mp hi
    obtain ⟨hlen, hz⟩ := hs.set_reserved 0
    exact ⟨hlen, save_eq_ok_iff.mpr hz⟩
  refine ⟨saved h, ?_⟩
  intro other ho index hi
  have heq : other.set 7 0 = bytes.set 7 0 :=
    Except.ok.inj ((saved ho).2.symm.trans (saved h).2)
  have hget := congrArg (·[index]?) heq
  simpa [List.getElem?_set_ne (Ne.symm hi)] using hget

/-- An image with a reserved byte of nine and filler that is not zero, of code that ends at once and
has an entry behind its end. -/
theorem save_of_load_unusual :
    let bytes : List UInt8 := [71, 86, 66, 67, 1, 0, 4, 9, 180, 7, 232, 56, 4, 0, 0, 0, 80, 2, 7, 7,
      1, 0, 0, 0, 2, 0, 195, 169, 1, 0, 0, 0]
    let code : Code :=
      { buffer := [80, 2, 7, 7], count := 1, alignment := 4,
        entries := [{ name := "é", instruction := 1 }] }
    load bytes = .ok code ∧ code.save = .ok (bytes.set 7 0) ∧
      ∀ other, load other = .ok code → ∀ index, index ≠ 7 → other[index]? = bytes[index]? := by
  intro bytes code
  have h : load bytes = .ok code := by decide +kernel
  exact ⟨h, (save_of_load h).1.2, (save_of_load h).2⟩

end Code

end RegisterMachine
