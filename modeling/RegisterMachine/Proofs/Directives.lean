import RegisterMachine.Code.Directive
import RegisterMachine.Proofs.Records

/-!
# What directives ask for

`Directive.Asks` says what a directive spells out, and `Directive.Admissible` what it must meet for
that to be an instruction. An instruction has operands for host calls only.
-/

namespace RegisterMachine

deriving instance DecidableEq for Directive

theorem Opcode.tag_injective {first second : Opcode} (h : first.tag = second.tag) :
    first = second := by
  have hs := ofTag?_tag first
  rw [h, ofTag?_tag] at hs
  exact (Option.some.inj hs).symm

/-- What a directive spells out: an operation with all its fields, and the operands of a host call. -/
inductive Directive.Asks : Directive → Op × List Operand → Prop
  | execute (function : UInt32) (operands : List Operand) :
      Asks (.execute function operands) (.execute function, operands)
  | zero (arg : Operand) : Asks (.zero arg) (.zero arg, [])
  | setFalse (arg : Operand) : Asks (.setFalse arg) (.setFalse arg, [])
  | setTrue (arg : Operand) : Asks (.setTrue arg) (.setTrue arg, [])
  | copy (source target : Operand) : Asks (.copy source target) (.copy { source, target }, [])
  | increment (arg : Operand) : Asks (.increment arg) (.increment arg, [])
  | decrement (arg : Operand) : Asks (.decrement arg) (.decrement arg, [])
  | equals (left right result : Operand) :
      Asks (.equals left right result) (.equals { left, right, result }, [])
  | notEquals (left right result : Operand) :
      Asks (.notEquals left right result) (.notEquals { left, right, result }, [])
  | jump {tag : UInt8} {target : Nat} {direction : Direction} {word : UInt32}
      (hd : (Opcode.jump direction).tag = tag) (hw : word.toNat = target) :
      Asks (.jump tag target) (.jump direction word, [])
  | jumpIf {tag : UInt8} {target : Nat} {direction : Direction} {word : UInt32}
      (condition : Operand) (polarity : Bool) (hd : (Opcode.jumpIf direction).tag = tag)
      (hw : word.toNat = target) :
      Asks (.jumpIf tag target condition polarity)
        (.jumpIf direction { target := word, polarity, condition }, [])
  | changeType (arg : Operand) (layout : Layout) (capacity : Nat) :
      Asks (.changeType arg layout capacity) (.changeType { arg, layout }, [])
  | exit : Asks .exit (.exit, [])
  | beginBlock (count index : Operand) :
      Asks (.beginBlock count index) (.beginBlock { count, index }, [])
  | endBlock : Asks .endBlock (.endBlock, [])

namespace Directive

theorem Asks.unique {directive : Directive} {first second : Op × List Operand}
    (hf : directive.Asks first) (hs : directive.Asks second) : first = second := by
  cases hf with
  | @jump tag target direction word hd hw =>
    cases hs with
    | jump hd' hw' =>
      cases Opcode.tag_injective (hd.trans hd'.symm)
      cases UInt32.toNat_inj.mp (hw.trans hw'.symm)
      rfl
  | @jumpIf tag target direction word condition polarity hd hw =>
    cases hs with
    | jumpIf _ _ hd' hw' =>
      cases Opcode.tag_injective (hd.trans hd'.symm)
      cases UInt32.toNat_inj.mp (hw.trans hw'.symm)
      rfl
  | _ =>
    cases hs
    rfl

private theorem toNat_of_jumpWord {index target : Nat} {word : UInt32}
    (h : jumpWord index target = .ok word) : word.toNat = target := by
  unfold jumpWord at h
  split at h
  · next hlt =>
    cases h
    exact UInt32.toNat_ofNat_of_lt' hlt
  · cases h

/-- The instruction of a directive is what the directive spells out. -/
theorem asks_of_instruction {index : Nat} {directive : Directive} {instruction : Instruction}
    (h : directive.instruction index = .ok instruction) :
    directive.Asks (instruction.op, instruction.operands) := by
  cases directive with
  | execute function operands =>
    simp only [Directive.instruction] at h
    split at h
    · cases h
      exact .execute function operands
    · cases h
  | jump tag target =>
    simp only [Directive.instruction] at h
    split at h
    · next direction ht =>
      obtain ⟨word, hw, h⟩ := Outcome.bind_eq_ok.mp h
      cases h
      exact .jump (Opcode.ofTag?_eq_some_iff.mp ht) (toNat_of_jumpWord hw)
    · cases h
  | jumpIf tag target condition polarity =>
    simp only [Directive.instruction] at h
    split at h
    · next direction ht =>
      obtain ⟨word, hw, h⟩ := Outcome.bind_eq_ok.mp h
      cases h
      exact .jumpIf condition polarity (Opcode.ofTag?_eq_some_iff.mp ht) (toNat_of_jumpWord hw)
    · cases h
  | changeType arg layout capacity =>
    simp only [Directive.instruction] at h
    split at h
    · cases h
      exact .changeType arg layout capacity
    · cases h
  | _ =>
    cases h
    constructor

/-- What a directive must meet by itself: a host call has no more operands than can be counted, a jump
has a tag of its kind and a target that fits a word, and a layout fits the bytes it is for. -/
def Admissible : Directive → Prop
  | .execute _ operands => operands.length ≤ maxOperands
  | .jump tag target =>
    (∃ direction, (Opcode.jump direction).tag = tag) ∧ target < UInt32.size
  | .jumpIf tag target _ _ =>
    (∃ direction, (Opcode.jumpIf direction).tag = tag) ∧ target < UInt32.size
  | .changeType _ layout capacity => layout.fitsIn capacity = true
  | _ => True

private theorem isOk_jumpWord_iff {index target : Nat} {next : UInt32 → Instruction} :
    (do return next (← jumpWord index target) : Except Fault Instruction).isOk = true ↔
      target < UInt32.size := by
  unfold jumpWord
  split
  · next h => exact iff_of_true rfl h
  · next h => exact iff_of_false Bool.false_ne_true h

/-- The number that the instruction is to have plays no part in this. -/
theorem isOk_instruction_iff {index : Nat} {directive : Directive} :
    (directive.instruction index).isOk = true ↔ directive.Admissible := by
  cases directive with
  | execute function operands =>
    simp only [Directive.instruction, Admissible]
    split
    · next h => exact iff_of_true rfl h
    · next h => exact iff_of_false Bool.false_ne_true h
  | jump tag target =>
    simp only [Directive.instruction, Admissible, ← Opcode.ofTag?_eq_some_iff]
    split
    · next direction ht => exact isOk_jumpWord_iff.trans (iff_and_self.mpr fun _ => ⟨direction, ht⟩)
    · next hn => exact iff_of_false Bool.false_ne_true fun h => h.1.elim hn
  | jumpIf tag target condition polarity =>
    simp only [Directive.instruction, Admissible, ← Opcode.ofTag?_eq_some_iff]
    split
    · next direction ht => exact isOk_jumpWord_iff.trans (iff_and_self.mpr fun _ => ⟨direction, ht⟩)
    · next hn => exact iff_of_false Bool.false_ne_true fun h => h.1.elim hn
  | changeType arg layout capacity =>
    simp only [Directive.instruction, Admissible]
    split
    · next h => exact iff_of_true rfl h
    · next h => exact iff_of_false Bool.false_ne_true h
  | _ => exact iff_of_true rfl trivial

theorem Asks.op_eq_endBlock_iff {directive : Directive} {asked : Op × List Operand}
    (h : directive.Asks asked) : asked.1 = .endBlock ↔ directive = .endBlock := by
  cases h with
  | endBlock => exact iff_of_true rfl rfl
  | _ => exact iff_of_false nofun nofun

/-- A directive gives operands to host calls only. -/
theorem counted {index : Nat} {directive : Directive} {instruction : Instruction}
    (h : directive.instruction index = .ok instruction) : instruction.Counted := by
  have hasks := asks_of_instruction h
  obtain ⟨op, operands, bounded⟩ := instruction
  cases hasks <;> rfl

end Directive

end RegisterMachine
