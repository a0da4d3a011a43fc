import RegisterMachine.Layout
import RegisterMachine.Operand

/-!
# Instruction payloads

The fixed-size records that stand behind an instruction's header, beyond a single word or a single
operand. A record whose bytes are too few is refused as a whole before its parts are looked at.
-/

namespace RegisterMachine

structure Transfer where
  source : Operand
  target : Operand
  deriving DecidableEq, Repr

/-- How often to run a block, and where to count its rounds. -/
structure Loop where
  count : Operand
  index : Operand
  deriving DecidableEq, Repr

structure Comparison where
  left : Operand
  right : Operand
  result : Operand
  deriving DecidableEq, Repr

/-- A jump to be taken when `condition` reads as `polarity`. -/
structure Branch where
  target : UInt32
  polarity : Bool
  condition : Operand
  deriving DecidableEq, Repr

structure Retyping where
  arg : Operand
  layout : Layout
  deriving DecidableEq, Repr

/-- The four words of a layout, in the order of its fields. -/
def Layout.toBytes (layout : Layout) : List UInt8 :=
  LittleEndian.ofWord layout.typeTag ++ LittleEndian.ofWord layout.elementSize ++
    LittleEndian.ofWord layout.elementCount ++ LittleEndian.ofWord layout.sliceCount

/-- The layout that the first four words of `bytes` spell. -/
def Layout.ofBytes (bytes : List UInt8) : Layout where
  typeTag := LittleEndian.word bytes
  elementSize := LittleEndian.word (bytes.drop 4)
  elementCount := LittleEndian.word (bytes.drop 8)
  sliceCount := LittleEndian.word (bytes.drop 12)

instance : Packed Transfer where
  size := 16
  pack transfer := pack transfer.source ++ pack transfer.target
  unpack := Packed.whole 16 fun bytes => do
    let source ← unpack bytes
    let target ← unpack (bytes.drop 8)
    return { source, target }

instance : Packed Loop where
  size := 16
  pack loop := pack loop.count ++ pack loop.index
  unpack := Packed.whole 16 fun bytes => do
    let count ← unpack bytes
    let index ← unpack (bytes.drop 8)
    return { count, index }

instance : Packed Comparison where
  size := 24
  pack comparison := pack comparison.left ++ pack comparison.right ++ pack comparison.result
  unpack := Packed.whole 24 fun bytes => do
    let left ← unpack bytes
    let right ← unpack (bytes.drop 8)
    let result ← unpack (bytes.drop 16)
    return { left, right, result }

/-- A branch has three reserved bytes behind its polarity; any polarity but zero means true. -/
instance : Packed Branch where
  size := 16
  pack branch :=
    LittleEndian.ofWord branch.target ++ [if branch.polarity then 1 else 0, 0, 0, 0] ++
      pack branch.condition
  unpack := Packed.whole 16 fun bytes => do
    let condition ← unpack (bytes.drop 8)
    return { target := LittleEndian.word bytes, polarity := bytes.getD 4 0 != 0, condition }

instance : Packed Retyping where
  size := 24
  pack retyping := pack retyping.arg ++ retyping.layout.toBytes
  unpack := Packed.whole 24 fun bytes => do
    let arg ← unpack bytes
    return { arg, layout := Layout.ofBytes (bytes.drop 8) }

/-! ### The records are read back -/

private theorem length_pack_operand (operand : Operand) : (pack operand).length = 8 :=
  length_pack operand

private theorem drop_operand (operand : Operand) (rest : List UInt8) :
    (pack operand ++ rest).drop 8 = rest := drop_pack_append operand rest

private theorem drop_two_operands (first second : Operand) (rest : List UInt8) :
    (pack first ++ (pack second ++ rest)).drop 16 = rest := by
  rw [show (16 : Nat) = 8 + 8 from rfl, ← List.drop_drop, drop_operand, drop_operand]

private theorem drop_word (word : UInt32) (rest : List UInt8) :
    (LittleEndian.ofWord word ++ rest).drop 4 = rest := drop_pack_append word rest

theorem Layout.length_toBytes (layout : Layout) : layout.toBytes.length = 16 := by
  simp only [toBytes, List.length_append, LittleEndian.length_ofWord]

theorem Layout.ofBytes_toBytes_append (layout : Layout) (rest : List UInt8) :
    ofBytes (layout.toBytes ++ rest) = layout := by
  have h8 (bytes : List UInt8) : bytes.drop 8 = (bytes.drop 4).drop 4 := by
    rw [List.drop_drop]
  have h12 (bytes : List UInt8) : bytes.drop 12 = ((bytes.drop 4).drop 4).drop 4 := by
    rw [List.drop_drop, List.drop_drop]
  simp only [ofBytes, toBytes, List.append_assoc, h8, h12, drop_word,
    LittleEndian.word_ofWord_append]

instance : LawfulPacked Transfer where
  length_pack transfer := by
    simp only [pack, Packed.size, List.length_append, Operand.length_toBytes]
  unpack_pack_append transfer rest := by
    obtain ⟨source, target⟩ := transfer
    have hp : pack (Transfer.mk source target) ++ rest = pack source ++ (pack target ++ rest) :=
      List.append_assoc ..
    rw [hp]
    refine (Packed.whole_of_le _ ?_).trans ?_
    · simp only [List.length_append, length_pack_operand]
      omega
    · rw [unpack_pack_append, drop_operand, unpack_pack_append]
      rfl

instance : LawfulPacked Loop where
  length_pack loop := by
    simp only [pack, Packed.size, List.length_append, Operand.length_toBytes]
  unpack_pack_append loop rest := by
    obtain ⟨count, index⟩ := loop
    have hp : pack (Loop.mk count index) ++ rest = pack count ++ (pack index ++ rest) :=
      List.append_assoc ..
    rw [hp]
    refine (Packed.whole_of_le _ ?_).trans ?_
    · simp only [List.length_append, length_pack_operand]
      omega
    · rw [unpack_pack_append, drop_operand, unpack_pack_append]
      rfl

instance : LawfulPacked Comparison where
  length_pack comparison := by
    simp only [pack, Packed.size, List.length_append, Operand.length_toBytes]
  unpack_pack_append comparison rest := by
    obtain ⟨left, right, result⟩ := comparison
    have hp : pack (Comparison.mk left right result) ++ rest =
        pack left ++ (pack right ++ (pack result ++ rest)) :=
      (List.append_assoc ..).trans (List.append_assoc ..)
    rw [hp]
    refine (Packed.whole_of_le _ ?_).trans ?_
    · simp only [List.length_append, length_pack_operand]
      omega
    · rw [unpack_pack_append, drop_operand, unpack_pack_append, drop_two_operands,
        unpack_pack_append]
      rfl

instance : LawfulPacked Branch where
  length_pack branch := by
    simp only [pack, Packed.size, List.length_append, LittleEndian.length_ofWord, List.length_cons,
      List.length_nil, Operand.length_toBytes]
  unpack_pack_append branch rest := by
    obtain ⟨target, polarity, condition⟩ := branch
    let middle : List UInt8 := [if polarity then 1 else 0, 0, 0, 0]
    have hp : pack (Branch.mk target polarity condition) ++ rest =
        LittleEndian.ofWord target ++ (middle ++ (pack condition ++ rest)) :=
      (List.append_assoc ..).trans (List.append_assoc ..)
    have h4 : (LittleEndian.ofWord target ++ (middle ++ (pack condition ++ rest))).getD 4 0 =
        if polarity then 1 else 0 := by
      rw [List.getD_eq_getElem?_getD, List.getElem?_append_right (by simp), LittleEndian.length_ofWord]
      rfl
    have h8 : (LittleEndian.ofWord target ++ (middle ++ (pack condition ++ rest))).drop 8 =
        pack condition ++ rest := by
      rw [show (8 : Nat) = 4 + 4 from rfl, ← List.drop_drop, drop_word]
      rfl
    rw [hp]
    refine (Packed.whole_of_le _ ?_).trans ?_
    · simp only [List.length_append, LittleEndian.length_ofWord, length_pack_operand, middle,
        List.length_cons, List.length_nil]
      omega
    · rw [h8, unpack_pack_append, h4, LittleEndian.word_ofWord_append]
      cases polarity <;> rfl

instance : LawfulPacked Retyping where
  length_pack retyping := by
    simp only [pack, Packed.size, List.length_append, Operand.length_toBytes,
      Layout.length_toBytes]
  unpack_pack_append retyping rest := by
    obtain ⟨arg, layout⟩ := retyping
    have hp : pack (Retyping.mk arg layout) ++ rest = pack arg ++ (layout.toBytes ++ rest) :=
      List.append_assoc ..
    rw [hp]
    refine (Packed.whole_of_le _ ?_).trans ?_
    · simp only [List.length_append, length_pack_operand, Layout.length_toBytes]
      omega
    · rw [unpack_pack_append, drop_operand, Layout.ofBytes_toBytes_append]
      rfl

end RegisterMachine
