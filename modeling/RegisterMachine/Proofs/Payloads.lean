import RegisterMachine.Payload
import RegisterMachine.Proofs.Images

/-!
# What a packed record keeps

A record is a row of parts: words, operands, and a polarity with its reserved bytes. Reading it looks
at every byte but the element of an operand that means the whole register and the reserved bytes, and
of a polarity only at whether it is zero. So what was read is written as the bytes it was read from,
with those settled, and reading is refused only where the bytes are too few or an operand is amiss.
-/

namespace RegisterMachine

/-! ### Banks and elements -/

namespace Bank

theorem ofCode?_eq_some_iff {byte : UInt8} {bank : Bank} :
    ofCode? byte = some bank ↔ byte = bank.code := by
  constructor
  · intro h
    unfold ofCode? at h
    grind [code]
  · rintro rfl
    exact ofCode?_code bank

theorem ofCode?_eq_none_iff {byte : UInt8} : ofCode? byte = none ↔ 2 < byte := by
  simp only [ofCode?, UInt8.lt_iff_toNat_lt, ← UInt8.toNat_inj]
  grind

end Bank

namespace Element

/-- Only the word of a whole register is not kept. -/
theorem mode_raw_of_ofWire? {mode : UInt8} {word : UInt32} {element : Element}
    (h : ofWire? mode word = some element) :
    element.mode = mode ∧ element.raw = if mode = 0 then 0 else word := by
  unfold ofWire? at h
  split at h
  · next hm =>
    cases h
    exact ⟨hm.symm, (if_pos hm).symm⟩
  · next hm =>
    rw [if_neg hm]
    split at h
    · next hf =>
      cases h
      exact ⟨hf.symm, rfl⟩
    · split at h
      · next hi =>
        cases h
        have hword : word.toUInt16.toUInt32 = word := by
          apply UInt32.toNat_inj.mp
          rw [UInt16.toNat_toUInt32, UInt32.toNat_toUInt16]
          exact Nat.mod_eq_of_lt hi.2
        exact ⟨hi.1.symm, hword⟩
      · cases h

theorem ofWire?_eq_none_iff {mode : UInt8} {word : UInt32} :
    ofWire? mode word = none ↔ 2 < mode ∨ mode = 2 ∧ UInt16.size ≤ word.toNat := by
  simp only [ofWire?, UInt8.lt_iff_toNat_lt, ← UInt8.toNat_inj]
  grind

end Element

namespace Packed

/-! ### Parts of records -/

inductive Part
  /-- A word, of which every byte counts. -/
  | word
  | operand
  /-- A polarity, and three reserved bytes behind it. -/
  | polarity

namespace Part

def size : Part → Nat
  | .word => 4
  | .operand => 8
  | .polarity => 4

/-- What is written for a part that was read from the front of these bytes: the bytes themselves, but
zeros for the element of a whole register and for reserved bytes, and a one for any other polarity
than zero. -/
def settled : Part → List UInt8 → List UInt8
  | .word, bytes => bytes.take 4
  | .operand, bytes => if bytes.getD 1 0 = 0 then bytes.take 4 ++ [0, 0, 0, 0] else bytes.take 8
  | .polarity, bytes => [if bytes.getD 0 0 = 0 then 0 else 1, 0, 0, 0]

/-- The part at the front of these bytes is an operand with a bank or a mode that does not exist, or
with an index register that no half word names. -/
def Amiss : Part → List UInt8 → Prop
  | .operand, bytes =>
    2 < bytes.getD 0 0 ∨ 2 < bytes.getD 1 0 ∨
      bytes.getD 1 0 = 2 ∧ UInt16.size ≤ (LittleEndian.word (bytes.drop 4)).toNat
  | .word, _ | .polarity, _ => False

/-- Read a part and write what was read. -/
def rewrite : Part → List UInt8 → Except Fault (List UInt8)
  | .word, bytes => .ok (pack (LittleEndian.word bytes))
  | .operand, bytes => (unpack bytes : Except Fault Operand).map pack
  | .polarity, bytes => .ok [if bytes.getD 0 0 != 0 then 1 else 0, 0, 0, 0]

end Part

def sizeOf : List Part → Nat
  | [] => 0
  | part :: parts => part.size + sizeOf parts

/-- What is written for a row of parts that was read from the front of these bytes. -/
def settled : List Part → List UInt8 → List UInt8
  | [], _ => []
  | part :: parts, bytes => part.settled bytes ++ settled parts (bytes.drop part.size)

/-- Some part of the row is amiss. -/
def Amiss : List Part → List UInt8 → Prop
  | [], _ => False
  | part :: parts, bytes => part.Amiss bytes ∨ Amiss parts (bytes.drop part.size)

/-- Read a row of parts and write what was read. -/
def rewrite : List Part → List UInt8 → Except Fault (List UInt8)
  | [], _ => .ok []
  | part :: parts, bytes => do
    return (← part.rewrite bytes) ++ (← rewrite parts (bytes.drop part.size))

/-- Either nothing is amiss and these bytes are written, or something is and it is refused as an
invalid opcode. -/
def Rewrites (amiss : Prop) (written : List UInt8) : Except Fault (List UInt8) → Prop
  | .ok bytes => ¬ amiss ∧ bytes = written
  | .error fault => amiss ∧ fault.cause = .invalidOpcode

theorem Rewrites.append {amiss more : Prop} {first second : List UInt8}
    {front back : Except Fault (List UInt8)} (hf : Rewrites amiss first front)
    (hb : Rewrites more second back) :
    Rewrites (amiss ∨ more) (first ++ second) (do return (← front) ++ (← back)) := by
  cases front with
  | error fault => exact ⟨.inl hf.1, hf.2⟩
  | ok bytes =>
    cases back with
    | error fault => exact ⟨.inr hb.1, hb.2⟩
    | ok others =>
      obtain ⟨hn, rfl⟩ := hf
      obtain ⟨hm, rfl⟩ := hb
      exact ⟨not_or.mpr ⟨hn, hm⟩, rfl⟩

private theorem exists_cons_of_le {n : Nat} {bytes : List UInt8} (h : n + 1 ≤ bytes.length) :
    ∃ byte rest, bytes = byte :: rest ∧ n ≤ rest.length := by
  obtain ⟨byte, rest, rfl⟩ := List.exists_cons_of_length_pos (Nat.lt_of_lt_of_le n.succ_pos h)
  exact ⟨byte, rest, rfl, Nat.le_of_succ_le_succ h⟩

private theorem rewrites_operand (code mode r₀ r₁ e₀ e₁ e₂ e₃ : UInt8) (rest : List UInt8) :
    let bytes := code :: mode :: r₀ :: r₁ :: e₀ :: e₁ :: e₂ :: e₃ :: rest
    Rewrites (Part.Amiss .operand bytes) (Part.settled .operand bytes)
      (Part.rewrite .operand bytes) := by
  intro bytes
  change Rewrites _ _ ((Operand.ofBytes bytes).map pack)
  simp only [bytes, Operand.ofBytes]
  cases hb : Bank.ofCode? code with
  | none => exact ⟨.inl (Bank.ofCode?_eq_none_iff.mp hb), rfl⟩
  | some bank =>
    have hcode := Bank.ofCode?_eq_some_iff.mp hb
    have hbank : ¬ 2 < code := by
      intro hlt
      rw [Bank.ofCode?_eq_none_iff.mpr hlt] at hb
      cases hb
    cases he : Element.ofWire? mode (LittleEndian.word [e₀, e₁, e₂, e₃]) with
    | none => exact ⟨.inr (Element.ofWire?_eq_none_iff.mp he), rfl⟩
    | some element =>
      obtain ⟨hmode, hraw⟩ := Element.mode_raw_of_ofWire? he
      have hmodes : ¬ (2 < mode ∨ mode = 2 ∧
          UInt16.size ≤ (LittleEndian.word [e₀, e₁, e₂, e₃]).toNat) := by
        intro ha
        rw [Element.ofWire?_eq_none_iff.mpr ha] at he
        cases he
      refine ⟨not_or.mpr ⟨hbank, hmodes⟩, ?_⟩
      change Operand.toBytes _ = _
      rw [Operand.toBytes, ← hcode, hmode, hraw, LittleEndian.ofHalf_half rfl]
      change _ = if mode = 0 then _ else _
      split
      · rfl
      · rw [LittleEndian.ofWord_word rfl]
        rfl

private theorem rewrites_part {part : Part} {bytes : List UInt8} (h : part.size ≤ bytes.length) :
    Rewrites (part.Amiss bytes) (part.settled bytes) (part.rewrite bytes) := by
  cases part with
  | word =>
    have hlen : (bytes.take 4).length = 4 := by
      rw [List.length_take]
      exact Nat.min_eq_left h
    have hword := LittleEndian.ofWord_word hlen
    rw [LittleEndian.word, List.take_take] at hword
    exact ⟨id, hword⟩
  | operand =>
    obtain ⟨code, _, rfl, h₁⟩ := exists_cons_of_le h
    obtain ⟨mode, _, rfl, h₂⟩ := exists_cons_of_le h₁
    obtain ⟨r₀, _, rfl, h₃⟩ := exists_cons_of_le h₂
    obtain ⟨r₁, _, rfl, h₄⟩ := exists_cons_of_le h₃
    obtain ⟨e₀, _, rfl, h₅⟩ := exists_cons_of_le h₄
    obtain ⟨e₁, _, rfl, h₆⟩ := exists_cons_of_le h₅
    obtain ⟨e₂, _, rfl, h₇⟩ := exists_cons_of_le h₆
    obtain ⟨e₃, rest, rfl, -⟩ := exists_cons_of_le h₇
    exact rewrites_operand code mode r₀ r₁ e₀ e₁ e₂ e₃ rest
  | polarity =>
    refine ⟨id, ?_⟩
    cases hp : bytes.getD 0 0 == 0 <;> simp_all [Part.settled]

/-- A row of parts is read and written part by part. -/
theorem rewrites_row {parts : List Part} {bytes : List UInt8} (h : sizeOf parts ≤ bytes.length) :
    Rewrites (Amiss parts bytes) (settled parts bytes) (rewrite parts bytes) := by
  induction parts generalizing bytes with
  | nil => exact ⟨id, rfl⟩
  | cons part parts ih =>
    rw [sizeOf] at h
    have hrest : sizeOf parts ≤ (bytes.drop part.size).length := by
      rw [List.length_drop]
      omega
    exact (rewrites_part (by omega)).append (ih hrest)

/-! ### Records -/

/-- A record is packed as a row of parts, and read back from it. What is read from any bytes is
written as those bytes settled, and nothing is refused but bytes that are too few and operands that
are amiss. -/
structure Exact (α : Type) [Packed α] (parts : List Part) : Prop where
  size_eq : Packed.size α = sizeOf parts
  length_pack (record : α) : (pack record).length = Packed.size α
  unpack_pack (record : α) (rest : List UInt8) : unpack (pack record ++ rest) = .ok record
  pack_of_unpack (bytes : List UInt8) (record : α) :
    unpack bytes = .ok record → pack record = settled parts bytes
  cause_of_unpack (bytes : List UInt8) (fault : Fault) :
    (unpack bytes : Except Fault α) = .error fault →
      fault.cause = .truncatedByteCode ∨ fault.cause = .invalidOpcode
  truncated_iff (bytes : List UInt8) :
    (∃ fault, (unpack bytes : Except Fault α) = .error fault ∧ fault.cause = .truncatedByteCode) ↔
      bytes.length < Packed.size α
  invalid_iff (bytes : List UInt8) :
    (∃ fault, (unpack bytes : Except Fault α) = .error fault ∧ fault.cause = .invalidOpcode) ↔
      Packed.size α ≤ bytes.length ∧ Amiss parts bytes

/-- Bytes that are too few are refused before anything else, and of enough bytes every part is read
and written for itself. -/
structure Reads (α : Type) [Packed α] (parts : List Part) : Prop where
  size_eq : Packed.size α = sizeOf parts
  short {bytes : List UInt8} (h : bytes.length < Packed.size α) :
    ∃ note, (unpack bytes : Except Fault α) = Fault.raise .truncatedByteCode note
  rewrite_eq {bytes : List UInt8} (h : Packed.size α ≤ bytes.length) :
    (unpack bytes : Except Fault α).map pack = rewrite parts bytes

private theorem exact_of_reads {α : Type} [Packed α] [LawfulPacked α] {parts : List Part}
    (h : Reads α parts) : Exact α parts := by
  have hlong {bytes : List UInt8} (hl : Packed.size α ≤ bytes.length) :
      Rewrites (Amiss parts bytes) (settled parts bytes)
        ((unpack bytes : Except Fault α).map pack) := by
    rw [h.rewrite_eq hl]
    exact rewrites_row (h.size_eq ▸ hl)
  have hcases (bytes : List UInt8) {fault : Fault}
      (hu : (unpack bytes : Except Fault α) = .error fault) :
      bytes.length < Packed.size α ∧ fault.cause = .truncatedByteCode ∨
        Packed.size α ≤ bytes.length ∧ Amiss parts bytes ∧ fault.cause = .invalidOpcode := by
    rcases Nat.lt_or_ge bytes.length (Packed.size α) with hs | hl
    · obtain ⟨note, hn⟩ := h.short hs
      cases hu.symm.trans hn
      exact .inl ⟨hs, rfl⟩
    · have hr := hlong hl
      rw [hu] at hr
      exact .inr ⟨hl, hr⟩
  refine ⟨h.size_eq, length_pack, unpack_pack_append, ?_, ?_, ?_, ?_⟩
  · intro bytes record hu
    rcases Nat.lt_or_ge bytes.length (Packed.size α) with hs | hl
    · obtain ⟨note, hn⟩ := h.short hs
      cases hu.symm.trans hn
    · have hr := hlong hl
      rw [hu] at hr
      exact hr.2
  · intro bytes fault hu
    rcases hcases bytes hu with ⟨-, hc⟩ | ⟨-, -, hc⟩
    · exact .inl hc
    · exact .inr hc
  · intro bytes
    constructor
    · rintro ⟨fault, hu, hc⟩
      rcases hcases bytes hu with ⟨hs, -⟩ | ⟨-, -, hi⟩
      · exact hs
      · cases hc.symm.trans hi
    · intro hs
      obtain ⟨note, hn⟩ := h.short hs
      exact ⟨_, hn, rfl⟩
  · intro bytes
    constructor
    · rintro ⟨fault, hu, hc⟩
      rcases hcases bytes hu with ⟨-, ht⟩ | ⟨hl, ha, -⟩
      · cases hc.symm.trans ht
      · exact ⟨hl, ha⟩
    · rintro ⟨hl, ha⟩
      have hr := hlong hl
      cases hu : (unpack bytes : Except Fault α) with
      | ok record =>
        rw [hu] at hr
        exact absurd ha hr.1
      | error fault =>
        rw [hu] at hr
        exact ⟨fault, rfl, hr.2⟩

private theorem reads_operand : Reads Operand [.operand] where
  size_eq := rfl
  short {bytes} h := by
    refine ⟨"OPERAND", ?_⟩
    change bytes.length < 8 at h
    change Operand.ofBytes bytes = _
    unfold Operand.ofBytes
    split
    · simp only [List.length_cons] at h
      omega
    · rfl
  rewrite_eq {bytes} _ := by
    simp only [rewrite, Part.rewrite]
    cases (unpack bytes : Except Fault Operand) with
    | error fault => rfl
    | ok operand => exact congrArg Except.ok (List.append_nil _).symm

/-- What is written for the record that came of reading is `front`, and behind it what is written for
the parts that are left. -/
def Writes {α : Type} [Packed α] (front : List UInt8) (parts : List Part) (bytes : List UInt8)
    (result : Except Fault α) : Prop :=
  result.map pack = (rewrite parts bytes).map (front ++ ·)

namespace Writes

variable {α : Type} [Packed α] {front bytes : List UInt8} {parts : List Part}

theorem nil {record : α} (h : pack record = front) :
    Writes front [] bytes (pure record : Except Fault α) := by
  change Except.ok (pack record) = Except.ok (front ++ [])
  rw [h, List.append_nil]

/-- A part that is never amiss is read together with those behind it. -/
theorem plain {part : Part} {written : List UInt8} {result : Except Fault α}
    (hp : part.rewrite bytes = .ok written)
    (h : Writes (front ++ written) parts (bytes.drop part.size) result) :
    Writes front (part :: parts) bytes result := by
  unfold Writes at h ⊢
  rw [h, rewrite, hp]
  cases rewrite parts (bytes.drop part.size) with
  | error fault => rfl
  | ok others => exact congrArg Except.ok (List.append_assoc ..)

theorem operand {place : List UInt8} (hplace : place = bytes) {read : Operand → Except Fault α}
    (h : ∀ operand, Writes (front ++ pack operand) parts (bytes.drop 8) (read operand)) :
    Writes front (.operand :: parts) bytes ((unpack place : Except Fault Operand) >>= read) := by
  subst hplace
  cases hu : (unpack place : Except Fault Operand) with
  | error fault =>
    simp only [Writes, rewrite, Part.rewrite, hu]
    rfl
  | ok operand =>
    refine plain ?_ (h operand)
    rw [Part.rewrite, hu]
    rfl

end Writes

/-- All records but a single operand are measured first, and then read part by part. -/
theorem reads_of_whole {α : Type} [Packed α] {parts : List Part}
    {read : List UInt8 → Except Fault α} (hs : Packed.size α = sizeOf parts)
    (hw : unpack = whole (Packed.size α) read) (hr : ∀ bytes, Writes [] parts bytes (read bytes)) :
    Reads α parts where
  size_eq := hs
  short h := ⟨"RECORD", by rw [hw]; exact if_pos h⟩
  rewrite_eq {bytes} h := by
    rw [hw, whole_of_le read h, hr]
    cases rewrite parts bytes <;> rfl

private theorem reads_word : Reads UInt32 [.word] := by
  refine reads_of_whole rfl rfl ?_
  intro bytes
  exact .plain rfl (.nil rfl)

private theorem reads_loop : Reads Loop [.operand, .operand] := by
  refine reads_of_whole rfl rfl ?_
  intro bytes
  exact .operand rfl fun count => .operand rfl fun index => .nil rfl

private theorem reads_transfer : Reads Transfer [.operand, .operand] := by
  refine reads_of_whole rfl rfl ?_
  intro bytes
  exact .operand rfl fun source => .operand rfl fun target => .nil rfl

private theorem reads_comparison : Reads Comparison [.operand, .operand, .operand] := by
  refine reads_of_whole rfl rfl ?_
  intro bytes
  exact .operand rfl fun left => .operand rfl fun right =>
    .operand List.drop_drop.symm fun result => .nil rfl

private theorem reads_branch : Reads Branch [.word, .polarity, .operand] := by
  refine reads_of_whole rfl rfl ?_
  intro bytes
  refine .plain rfl (.plain rfl (.operand List.drop_drop.symm fun condition => .nil ?_))
  simp [pack, Part.size]

private theorem reads_retyping : Reads Retyping [.operand, .word, .word, .word, .word] := by
  refine reads_of_whole rfl rfl ?_
  intro bytes
  refine .operand rfl fun arg => .plain rfl (.plain rfl (.plain rfl (.plain rfl (.nil ?_))))
  simp [pack, Part.size, Layout.toBytes, Layout.ofBytes]

/-- The records of all instructions: an operand, alone or as the argument of an operation; a word,
which is the function of a call or the target of a jump; and those of blocks, copies, comparisons,
conditional jumps and changes of type. Each is packed into the bytes of its parts and read back
whatever follows them. What is read from any bytes is packed as those bytes again, but for the element
of a whole register, the polarity and the reserved bytes. Reading is refused for too few bytes, and
for an operand that is amiss, and for nothing else. -/
theorem records_read_exactly :
    Exact Operand [.operand] ∧ Exact UInt32 [.word] ∧ Exact Loop [.operand, .operand] ∧
      Exact Transfer [.operand, .operand] ∧ Exact Comparison [.operand, .operand, .operand] ∧
      Exact Branch [.word, .polarity, .operand] ∧
      Exact Retyping [.operand, .word, .word, .word, .word] :=
  ⟨exact_of_reads reads_operand, exact_of_reads reads_word, exact_of_reads reads_loop,
    exact_of_reads reads_transfer, exact_of_reads reads_comparison, exact_of_reads reads_branch,
    exact_of_reads reads_retyping⟩

/-- A conditional jump with an odd polarity, reserved bytes that are not zero and an element that a
whole register has no use for. -/
example : (unpack [3, 0, 0, 0, 7, 9, 9, 9, 1, 0, 2, 0, 5, 5, 5, 5, 6] : Except Fault Branch).map pack =
    .ok [3, 0, 0, 0, 1, 0, 0, 0, 1, 0, 2, 0, 0, 0, 0, 0] := by decide

end Packed

end RegisterMachine
