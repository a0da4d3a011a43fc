import RegisterMachine.Packed

/-!
# Operands

An operand names a place in memory and never carries a value: a bank, a register of that bank, and
the element of the register that is meant. It takes eight bytes: the bank, the element mode, the
register as a half word and the element as a word.
-/

namespace RegisterMachine

/-- The three register banks. -/
inductive Bank
  /-- Scratch registers of one machine. -/
  | work
  /-- Constants, which running code cannot change. -/
  | literal
  /-- Registers that the host shares with the program. -/
  | external
  deriving DecidableEq, Repr

namespace Bank

/-- The banks in the order of their byte codes. -/
def all : List Bank := [.work, .literal, .external]

def code : Bank → UInt8
  | .work => 0
  | .literal => 1
  | .external => 2

def ofCode? (byte : UInt8) : Option Bank :=
  if byte = 0 then some .work
  else if byte = 1 then some .literal
  else if byte = 2 then some .external
  else none

def letter : Bank → Char
  | .work => 'R'
  | .literal => 'L'
  | .external => 'X'

/-- The bank of an operand's first letter, in either case. -/
def ofLetter? (letter : Char) : Option Bank :=
  match letter.toUpper with
  | 'R' => some .work
  | 'L' => some .literal
  | 'X' => some .external
  | _ => none

@[simp] theorem ofCode?_code (bank : Bank) : ofCode? bank.code = some bank := by
  cases bank <;> decide

@[simp] theorem ofLetter?_letter (bank : Bank) : ofLetter? bank.letter = some bank := by
  cases bank <;> decide

end Bank

/-- Which element of a register is meant. -/
inductive Element
  /-- The whole register, or its first element where one value is wanted. -/
  | whole
  /-- The element with this index. -/
  | fixed (index : UInt32)
  /-- The element whose index this work register holds. -/
  | indirect (register : UInt16)
  deriving DecidableEq, Repr

namespace Element

/-- The byte that tells the three kinds of element apart. -/
def mode : Element → UInt8
  | .whole => 0
  | .fixed _ => 1
  | .indirect _ => 2

/-- The word that goes with the mode. -/
def raw : Element → UInt32
  | .whole => 0
  | .fixed index => index
  | .indirect register => register.toUInt32

/-- The element with this mode and word; an index register must be a half word. -/
def ofWire? (mode : UInt8) (raw : UInt32) : Option Element :=
  if mode = 0 then some .whole
  else if mode = 1 then some (.fixed raw)
  else if mode = 2 ∧ raw.toNat < UInt16.size then some (.indirect raw.toUInt16)
  else none

/-- What is written after the register: nothing, an index, or an index register. -/
def text : Element → String
  | .whole => ""
  | .fixed index => "[" ++ toString index.toNat ++ "]"
  | .indirect register => "[R" ++ toString register.toNat ++ "]"

@[simp] theorem ofWire?_mode_raw (element : Element) :
    ofWire? element.mode element.raw = some element := by
  cases element with
  | whole => rfl
  | fixed index => rfl
  | indirect register =>
    have h : register.toUInt32.toNat < UInt16.size := by
      rw [UInt16.toNat_toUInt32]
      exact register.toNat_lt
    have hr : register.toUInt32.toUInt16 = register := by simp
    change (if (2 : UInt8) = 2 ∧ register.toUInt32.toNat < UInt16.size then
      some (Element.indirect register.toUInt32.toUInt16) else none) = _
    rw [if_pos ⟨rfl, h⟩, hr]

end Element

/-- A place in memory. -/
structure Operand where
  bank : Bank
  register : UInt16
  element : Element := .whole
  deriving DecidableEq, Repr

namespace Operand

def work (register : UInt16) : Operand := { bank := .work, register }

def elementAt (operand : Operand) (index : UInt32) : Operand :=
  { operand with element := .fixed index }

/-- The bank letter and register number, then the element. -/
def text (operand : Operand) : String :=
  String.singleton operand.bank.letter ++ toString operand.register.toNat ++ operand.element.text

def toBytes (operand : Operand) : List UInt8 :=
  operand.bank.code :: operand.element.mode ::
    (LittleEndian.ofHalf operand.register ++ LittleEndian.ofWord operand.element.raw)

/-- The operand at the front of `bytes`. An unknown bank is reported before an unknown mode. -/
def ofBytes : List UInt8 → Except Fault Operand
  | code :: mode :: r₀ :: r₁ :: e₀ :: e₁ :: e₂ :: e₃ :: _ =>
    match Bank.ofCode? code with
    | none => Fault.raise .invalidOpcode "UNKNOWN MEMORY KIND"
    | some bank =>
      match Element.ofWire? mode (LittleEndian.word [e₀, e₁, e₂, e₃]) with
      | none => Fault.raise .invalidOpcode "UNKNOWN ELEMENT MODE"
      | some element => .ok { bank, register := LittleEndian.half [r₀, r₁], element }
  | _ => Fault.raise .truncatedByteCode "OPERAND"

instance : Packed Operand where
  size := 8
  pack := toBytes
  unpack := ofBytes

@[simp] theorem length_toBytes (operand : Operand) : operand.toBytes.length = 8 := by
  simp [toBytes]

/-- An operand is read back from its bytes, whatever follows them. -/
@[simp] theorem ofBytes_toBytes_append (operand : Operand) (rest : List UInt8) :
    ofBytes (operand.toBytes ++ rest) = .ok operand := by
  have hh := LittleEndian.half_ofHalf_append operand.register []
  have hw := LittleEndian.word_ofWord_append operand.element.raw []
  simp only [List.append_nil, LittleEndian.ofHalf, LittleEndian.ofWord, LittleEndian.ofNat] at hh hw
  simp only [toBytes, LittleEndian.ofHalf, LittleEndian.ofWord, LittleEndian.ofNat,
    List.cons_append, List.nil_append, ofBytes, hh, hw, Bank.ofCode?_code, Element.ofWire?_mode_raw]

instance : LawfulPacked Operand where
  length_pack := length_toBytes
  unpack_pack_append := ofBytes_toBytes_append

end Operand

end RegisterMachine
