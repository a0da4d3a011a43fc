import Mathlib.Data.List.Basic
import RegisterMachine.Monitor.Command
import RegisterMachine.Proofs.Legibility
import RegisterMachine.Proofs.Outcomes
import RegisterMachine.Proofs.Stores

/-!
# What the monitor shows of registers

How many elements of a register are shown is worked out from its layout and its bytes, and not by
reading. It comes to the elements that can be read, in order and with none left out, as long as the
elements have a size and there are fewer bytes than an index can count; a register with no such element
shows a question mark. There is a line for every register, bank by bank.
-/

namespace RegisterMachine

/-! ### Elements that can be read -/

namespace Register

/-- How many elements can be read: those of the layout that the bytes have room for. -/
def readableCount (register : Register) : Nat :=
  min register.layout.elements (register.capacity / register.layout.elementSize.toNat)

private theorem readableCount_le_capacity (register : Register) :
    register.readableCount ≤ register.capacity :=
  Nat.le_trans (Nat.min_le_right _ _) (Nat.div_le_self _ _)

theorem isOk_elementSpan_iff {register : Register} (hs : 1 ≤ register.layout.elementSize.toNat)
    (index : Nat) : (register.elementSpan index).isOk = true ↔ index < register.readableCount := by
  have hroom : (index + 1) * register.layout.elementSize.toNat ≤ register.capacity ↔
      index < register.capacity / register.layout.elementSize.toNat :=
    (Nat.le_div_iff_mul_le hs).symm
  unfold elementSpan readableCount
  dsimp only
  rw [Nat.lt_min]
  split
  · next h => exact iff_of_true rfl ⟨Int.ofNat_lt.mp h.2.1, hroom.mp h.2.2⟩
  · next h =>
    refine iff_of_false nofun ?_
    rintro ⟨helements, hbytes⟩
    exact h ⟨Int.natCast_nonneg index, Int.ofNat_lt.mpr helements, hroom.mpr hbytes⟩

/-- The limits on what is shown cut off nothing that can be read. -/
theorem shownCount_eq {register : Register} (hs : 1 ≤ register.layout.elementSize.toNat)
    (hc : register.capacity < UInt32.size) :
    Monitor.shownCount register = max register.readableCount 1 := by
  have hdiv := Nat.div_le_self register.capacity register.layout.elementSize.toNat
  simp only [UInt32.size] at hc
  simp only [Monitor.shownCount, readableCount, Nat.max_eq_left hs, UInt32.size]
  generalize register.capacity / register.layout.elementSize.toNat = room at hdiv ⊢
  omega

end Register

namespace Registers

variable {memory : Registers} {place : Operand} {register : Register}

private theorem readInt_elementAt (h : memory.register place = .ok register) (index : UInt32) :
    memory.readInt (place.elementAt index) =
      (register.elementSpan index.toNat).map fun span => Integer.ofBytes (register.slice span) := by
  have hplace : memory.register (place.elementAt index) = .ok register := h
  have hindex : memory.index (place.elementAt index).element = .ok (index.toNat : Int) := rfl
  simp only [readInt, elementBytes, element, hplace, hindex, bind, Except.bind]
  cases register.elementSpan index.toNat <;> rfl

theorem isOk_readInt_iff (h : memory.register place = .ok register)
    (hs : 1 ≤ register.layout.elementSize.toNat) (index : UInt32) :
    (memory.readInt (place.elementAt index)).isOk = true ↔ index.toNat < register.readableCount := by
  rw [readInt_elementAt h, ← Register.isOk_elementSpan_iff hs]
  cases register.elementSpan index.toNat <;> exact Iff.rfl

/-- The integers in all the elements of a register that can be read, in the order of their indices. -/
def readings (memory : Registers) (place : Operand) : List Int64 :=
  (List.range UInt32.size).filterMap fun index =>
    (memory.readInt (place.elementAt (UInt32.ofNat index))).toOption

/-- The elements that can be read are the first ones. -/
theorem readings_eq (h : memory.register place = .ok register)
    (hs : 1 ≤ register.layout.elementSize.toNat) (hc : register.capacity < UInt32.size) :
    memory.readings place = (List.range register.readableCount).filterMap fun index =>
      (memory.readInt (place.elementAt (UInt32.ofNat index))).toOption := by
  have hle : register.readableCount ≤ UInt32.size :=
    Nat.le_trans register.readableCount_le_capacity (Nat.le_of_lt hc)
  obtain ⟨others, ho⟩ := Nat.exists_eq_add_of_le hle
  rw [readings, ho, List.range_add, List.filterMap_append]
  refine (congrArg _ ?_).trans (List.append_nil _)
  rw [List.filterMap_eq_nil_iff]
  intro index hi
  obtain ⟨more, hm, rfl⟩ := List.mem_map.mp hi
  have hlt : register.readableCount + more < UInt32.size := by
    rw [ho]
    exact Nat.add_lt_add_left (List.mem_range.mp hm) _
  have hread := isOk_readInt_iff h hs (UInt32.ofNat (register.readableCount + more))
  rw [UInt32.toNat_ofNat_of_lt' hlt] at hread
  cases hr : memory.readInt (place.elementAt (UInt32.ofNat (register.readableCount + more))) with
  | error fault => rfl
  | ok value =>
    rw [hr] at hread
    exact absurd (hread.mp rfl) (by omega)

end Registers

/-! ### Lines -/

namespace Monitor

/-- How integers are shown in a row: a question mark stands for none. -/
def rowText : List Int64 → String
  | [] => "?"
  | values => " ".intercalate (values.map fun value => toString value.toInt)

variable {memory : Registers} {place : Operand} {register : Register}

private theorem elementText_of_isOk {operand : Operand} (h : (memory.readInt operand).isOk = true) :
    some (elementText memory operand) =
      (memory.readInt operand).toOption.map fun value => toString value.toInt := by
  obtain ⟨value, hv⟩ := Outcome.isOk_iff.mp h
  rw [elementText, hv]
  rfl

/-- What is shown of a register is what can be read there. -/
theorem shown_eq_rowText (h : memory.register place = .ok register)
    (hs : 1 ≤ register.layout.elementSize.toNat) (hc : register.capacity < UInt32.size) :
    " ".intercalate ((List.range (shownCount register)).map fun index =>
      elementText memory (place.elementAt (UInt32.ofNat index))) =
      rowText (memory.readings place) := by
  have hle := register.readableCount_le_capacity
  have hok := Registers.isOk_readInt_iff h hs
  have hrow := Registers.readings_eq h hs hc
  rw [Register.shownCount_eq hs hc]
  cases hn : register.readableCount with
  | zero =>
    have hfirst := hok 0
    rw [hn] at hrow hfirst
    rw [hrow]
    change elementText memory (place.elementAt 0) = "?"
    cases hr : memory.readInt (place.elementAt 0) with
    | error fault => rw [elementText, hr]
    | ok value =>
      rw [hr] at hfirst
      cases hfirst.mp rfl
  | succ n =>
    have htexts : (List.range (n + 1)).map (fun index =>
        elementText memory (place.elementAt (UInt32.ofNat index))) =
        (memory.readings place).map fun value => toString value.toInt := by
      rw [hrow, List.map_filterMap, ← List.filterMap_eq_map, hn]
      apply List.filterMap_congr
      intro index hi
      have hlt : index < register.readableCount := hn ▸ List.mem_range.mp hi
      apply elementText_of_isOk
      rw [hok, UInt32.toNat_ofNat_of_lt' (by omega)]
      exact hlt
    rw [Nat.max_eq_left (Nat.le_add_left 1 n), htexts]
    cases hv : memory.readings place with
    | nil =>
      simp [hv] at htexts
    | cons value values => rfl

/-- None of the characters of a text ends a line. -/
def OnOneLine (text : String) : Prop := '\n' ∉ text.toList

instance (text : String) : Decidable (OnOneLine text) := inferInstanceAs (Decidable (_ ∉ _))

private theorem onOneLine_append {first second : String} :
    OnOneLine (first ++ second) ↔ OnOneLine first ∧ OnOneLine second := by
  simp [OnOneLine, not_or]

private theorem onOneLine_numeral (n : Nat) : OnOneLine (toString n) := by
  intro h
  cases Text.isDigit_of_mem_numeral h

private theorem onOneLine_elementText (memory : Registers) (operand : Operand) :
    OnOneLine (elementText memory operand) := by
  unfold elementText
  split
  · next value _ =>
    rw [Int.toString_eq_repr, Int.repr_eq_if]
    split
    · exact onOneLine_numeral _
    · exact onOneLine_append.mpr ⟨by decide, onOneLine_numeral _⟩
  · decide

private theorem onOneLine_intercalate {texts : List String} (h : ∀ text ∈ texts, OnOneLine text) :
    OnOneLine (" ".intercalate texts) := by
  induction texts with
  | nil => decide
  | cons first rest ih =>
    obtain ⟨hfirst, hrest⟩ := List.forall_mem_cons.mp h
    cases rest with
    | nil => simpa using hfirst
    | cons second rest =>
      rw [String.intercalate_cons_cons, onOneLine_append, onOneLine_append]
      exact ⟨⟨hfirst, by decide⟩, ih hrest⟩

private theorem onOneLine_label (bank : Bank) (register : UInt16) :
    OnOneLine (Column.left 6 (Operand.text { bank, register })) := by
  have hblanks (text : String) : OnOneLine (Column.blanks 6 text) := by
    rw [OnOneLine, Column.toList_blanks]
    simp
  have hletter : OnOneLine (String.singleton bank.letter) := by
    cases bank <;> decide
  have helement : OnOneLine (Element.text .whole) := by decide
  rw [Column.left, onOneLine_append, Operand.text, onOneLine_append, onOneLine_append]
  exact ⟨⟨⟨hletter, onOneLine_numeral _⟩, helement⟩, hblanks _⟩

def lineAt (memory : Registers) (bank : Bank) (index : Nat) : String :=
  match (memory.bank bank)[index]? with
  | some register => registerText memory bank index register
  | none => ""

private theorem registersText_eq (memory : Registers) :
    registersText memory = String.join (Bank.all.flatMap fun bank =>
      (List.range (memory.bank bank).size).map (lineAt memory bank)) := by
  have hbank (bank : Bank) : (memory.bank bank).toList.mapIdx (registerText memory bank) =
      (List.range (memory.bank bank).size).map (lineAt memory bank) := by
    apply List.ext_getElem (by simp)
    intro index hi hj
    have hlt : index < (memory.bank bank).size := by simpa using hi
    simp [lineAt, hlt]
  simp only [registersText, hbank, Bank.all, List.map_cons, List.map_nil, List.flatMap_cons,
    List.flatMap_nil, String.join_cons, String.join_append, String.join_nil]

/-- The command shows one line for every register, the banks one after the other and the registers of a
bank in order. A line has the name of its register and, where elements have a size, the integers in
just those elements that can be read, in order, or a question mark if there are none. -/
theorem regs_shows_what_is_readable (machine : Machine)
    (hcount : ∀ bank, (machine.memory.bank bank).size ≤ UInt16.size)
    (hroom : ∀ bank, ∀ register ∈ machine.memory.bank bank, register.capacity < UInt32.size) :
    ∃ line : Bank → Nat → String,
      Command.regs.perform machine =
        (.text (String.join ([Bank.work, .literal, .external].flatMap fun bank =>
          (List.range (machine.memory.bank bank).size).map (line bank))), machine) ∧
      ∀ bank index register, (machine.memory.bank bank)[index]? = some register →
        ∃ place : Operand, ∃ shown,
          place.bank = bank ∧ place.register.toNat = index ∧ place.element = .whole ∧
          line bank index = Column.left 6 place.text ++ " " ++ shown ++ "\n" ∧
          OnOneLine (Column.left 6 place.text ++ " " ++ shown) ∧
          (1 ≤ register.layout.elementSize.toNat →
            shown = rowText (machine.memory.readings place)) := by
  refine ⟨lineAt machine.memory, ?_, ?_⟩
  · rw [Command.perform, registersText_eq]
    rfl
  · intro bank index register hr
    have hmem : register ∈ machine.memory.bank bank := Array.mem_of_getElem? hr
    have hindex : (UInt16.ofNat index).toNat = index := by
      obtain ⟨hlt, -⟩ := Array.getElem?_eq_some_iff.mp hr
      exact UInt16.toNat_ofNat_of_lt' (Nat.lt_of_lt_of_le hlt (hcount bank))
    let place : Operand := { bank, register := UInt16.ofNat index }
    have hplace : machine.memory.register place = .ok register := by
      rw [Registers.register_eq_ok_iff]
      change (machine.memory.bank bank)[(UInt16.ofNat index).toNat]? = some register
      rw [hindex, hr]
    refine ⟨place, " ".intercalate ((List.range (shownCount register)).map fun index =>
      elementText machine.memory (place.elementAt (UInt32.ofNat index))), rfl, hindex, rfl, ?_, ?_, ?_⟩
    · rw [lineAt, hr]
      rfl
    · rw [onOneLine_append, onOneLine_append]
      refine ⟨⟨onOneLine_label bank _, by decide⟩, onOneLine_intercalate ?_⟩
      intro text ht
      obtain ⟨number, -, rfl⟩ := List.mem_map.mp ht
      exact onOneLine_elementText _ _
    · intro hs
      exact shown_eq_rowText hplace hs (hroom bank register hmem)

/-- A register without bytes whose layout no word can measure, one with more elements than bytes, and
one whose last bytes are too few for an element. -/
theorem regs_shows_what_is_readable_cut :
    let memory : Registers :=
      { work := #[
          { layout := { elementSize := 2147483648, elementCount := 2147483648, sliceCount := 4 },
            bytes := [] },
          { layout := { elementSize := 1, elementCount := 65536, sliceCount := 65536 },
            bytes := [0, 255, 7] }],
        external := #[{ layout := { elementSize := 3, elementCount := 5 },
                        bytes := [1, 0, 0, 254, 255, 255, 9, 9] }] }
    (∀ bank, (memory.bank bank).size ≤ UInt16.size) ∧
    (∀ bank, ∀ register ∈ memory.bank bank, register.capacity < UInt32.size) ∧
    "R0     " ++ rowText (memory.readings { bank := .work, register := 0 }) ++ "\n" ++
      ("R1     " ++ rowText (memory.readings { bank := .work, register := 1 }) ++ "\n") ++
      ("X0     " ++ rowText (memory.readings { bank := .external, register := 0 }) ++ "\n") =
      "R0     ?\nR1     0 -1 7\nX0     1 -2\n" := by
  intro memory
  have hcount (bank : Bank) : (memory.bank bank).size ≤ UInt16.size := by
    cases bank <;> decide
  have hroom (bank : Bank) : ∀ register ∈ memory.bank bank, register.capacity < UInt32.size := by
    cases bank <;> decide
  refine ⟨hcount, hroom, ?_⟩
  let machine : Machine :=
    .create { code := {}, linked := { records := [], instructions := #[], blocks := [] } } ⟨#[]⟩ memory
  obtain ⟨line, hperform, hline⟩ := regs_shows_what_is_readable machine hcount hroom
  have hrow {bank : Bank} {index : Nat} {register : Register} {label : String}
      (hr : (memory.bank bank)[index]? = some register)
      (hs : 1 ≤ register.layout.elementSize.toNat)
      (hl : Column.left 6 (Operand.text { bank, register := UInt16.ofNat index }) ++ " " = label) :
      line bank index =
        label ++ rowText (memory.readings { bank, register := UInt16.ofNat index }) ++ "\n" := by
    obtain ⟨⟨_, number, _⟩, shown, rfl, rfl, rfl, htext, -, hshown⟩ := hline _ _ _ hr
    rw [UInt16.ofNat_toNat] at hl ⊢
    rw [htext, hshown hs, ← hl]
    rfl
  have hjoin : registersText memory = line .work 0 ++ line .work 1 ++ line .external 0 := by
    have htext := Reply.text.inj (Prod.mk.inj hperform).1
    rw [show registersText memory = _ from htext]
    simp [memory, machine, Machine.create, Registers.bank, List.range_succ, String.append_assoc]
  rw [hrow rfl (by decide) (show _ = "R0     " by decide +kernel),
    hrow rfl (by decide) (show _ = "R1     " by decide +kernel),
    hrow rfl (by decide) (show _ = "X0     " by decide +kernel)] at hjoin
  exact hjoin.symm.trans (by decide +kernel)

end Monitor

end RegisterMachine
