import RegisterMachine.Proofs.Bookkeeping
import RegisterMachine.Proofs.Pairing

/-!
# What the checks accept

`Code.Acceptable` says of records and operations, with no pass over them, what code has to be like:
its payloads and operands decode, its jumps and entries stay in the stream, its blocks are balanced.
The checks accept this code and no other. `Op.PairedBy` says in the same way which pairing of block
ends with block beginnings is the right one, and what the checks return is such a pairing.
-/

namespace RegisterMachine

namespace OperandArray

/-- Reading stops at the first malformed operand, so it comes to all of them just when none is. -/
theorem length_read_eq_iff {count : Nat} {bytes : List UInt8} :
    (read count bytes).length = count ↔
      ∀ position < count, ∃ operand,
        Operand.ofBytes (bytes.drop (position * Packed.size Operand)) = .ok operand := by
  induction count generalizing bytes with
  | zero => simp [read]
  | succ count ih =>
    rw [Nat.forall_lt_succ_left]
    simp only [Nat.zero_mul, List.drop_zero, Nat.succ_mul, Nat.add_comm _ (Packed.size Operand),
      ← List.drop_drop]
    unfold read
    cases hfirst : Operand.ofBytes bytes with
    | error fault => simp
    | ok operand => simp [ih]

end OperandArray

namespace Record

theorem WellFormed.length_toList_eq_iff {record : Record} (h : record.WellFormed) :
    record.operands.toList.length = record.opcode.arity ↔
      ∀ position < record.opcode.arity, ∃ operand,
        Operand.ofBytes (record.operands.bytes.drop (position * Packed.size Operand)) =
          .ok operand := by
  have hsize : record.operands.size = record.opcode.arity := by
    rw [OperandArray.size, h.length_operands]
    exact Nat.mul_div_cancel _ (by decide)
  rw [OperandArray.toList, hsize]
  exact OperandArray.length_read_eq_iff

private theorem exists_instructions {records : List Record} {ops : List Op}
    (ho : records.map op = ops.map .ok)
    (hl : ∀ record ∈ records, record.operands.toList.length = record.opcode.arity) :
    ∃ instructions : List Instruction,
      records.map instruction = instructions.map .ok ∧ instructions.map Instruction.op = ops := by
  induction records generalizing ops with
  | nil =>
    cases ops with
    | nil => exact ⟨[], rfl, rfl⟩
    | cons op ops => cases ho
  | cons record records ih =>
    cases ops with
    | nil => cases ho
    | cons op ops =>
      obtain ⟨hop, ho⟩ := List.cons.inj ho
      obtain ⟨hlength, hl⟩ := List.forall_mem_cons.mp hl
      obtain ⟨instructions, hm, rfl⟩ := ih ho hl
      let first : Instruction :=
        { op, operands := record.operands.toList, bounded := hlength ▸ record.opcode.arity_le }
      have hfirst : record.instruction = .ok first := by
        simp only [instruction, hop, bind, Except.bind]
        rw [dif_pos hlength]
        rfl
      exact ⟨first :: instructions, by simp [hfirst, hm], rfl⟩

end Record

namespace Linked

theorem jumpStays_eq_true_iff {count index : Nat} {op : Op} :
    jumpStays count index op = true ↔
      ∀ aim, op.jumpTarget? index = some aim → ∃ target ≤ count, aim = some target := by
  unfold jumpStays
  split
  · next h => simp [h]
  · next h => simp [h]
  · next target h => simp [h]

end Linked

namespace Op

theorem leavesOpen_nil_iff {ops : List Op} : LeavesOpen ops [] ↔ Balanced ops := by
  constructor
  · intro h
    cases h with
    | balanced hb => exact hb
  · exact .balanced

/-- The operations behind the first of a block and in front of its last. -/
def between (ops : List Op) (start stop : Nat) : List Op := (ops.take stop).drop (start + 1)

private theorem between_append {ops : List Op} {start stop : Nat} (h : stop ≤ ops.length)
    (more : List Op) : between (ops ++ more) start stop = between ops start stop := by
  rw [between, List.take_append_of_le_length h, between]

private theorem LeavesOpen.balanced_between {ops : List Op} {start : Nat} {outer : List Nat}
    (h : LeavesOpen ops (start :: outer)) : Balanced (between ops start ops.length) := by
  cases h with
  | @begin ops inner starts loop h hb =>
    have hinner : between (ops ++ .beginBlock loop :: inner) ops.length
        (ops ++ .beginBlock loop :: inner).length = inner := by
      rw [between, List.take_length, List.drop_append]
      simp
    rwa [hinner]

/-- The pairing leads from every operation that begins a block to the one that ends it. -/
structure PairedBy (ops : List Op) (pair : Nat → Option Nat) : Prop where
  begins : ∀ start, (∃ stop, pair start = some stop) ↔ ∃ loop, ops[start]? = some (.beginBlock loop)
  ends : ∀ stop, (∃ start, pair start = some stop) ↔ ops[stop]? = some .endBlock
  injective : ∀ start other stop, pair start = some stop → pair other = some stop → start = other
  inside : ∀ start stop, pair start = some stop →
    start < stop ∧ Balanced (between ops start stop)
  nested : ∀ start stop other last, pair start = some stop → pair other = some last →
    start = other ∨ stop < other ∨ last < start ∨ (start < other ∧ last < stop) ∨
      (other < start ∧ stop < last)

end Op

/-! ### Between the ends of a block -/

namespace Linked.Scan

open Op

def ops (scan : Scan) : List Op := scan.instructions.toList.map Instruction.op

/-- The open blocks are those that the operations leave open, and inside a closed one the operations
are balanced. -/
structure Balances (scan : Scan) : Prop where
  opened : LeavesOpen scan.ops scan.opened
  closed : ∀ block ∈ scan.closed,
    block.2 ≤ scan.ops.length ∧ Balanced (between scan.ops block.1 block.2)

private theorem balances_empty : Balances {} where
  opened := .balanced .nil
  closed := nofun

private theorem Balances.step {count : Nat} {scan next : Scan} {record : Record}
    (hb : Balances scan) (h : scan.step count record = .ok next) : Balances next := by
  obtain ⟨instruction, opened, -, -, ho, rfl⟩ := step_eq_ok_iff.mp h
  have hlength : scan.ops.length = scan.instructions.size := by simp [ops]
  have hops : ∀ opened closed, ops ⟨scan.instructions.push instruction, opened, closed⟩ =
      scan.ops ++ [instruction.op] := by simp [ops]
  have hkept : ∀ block ∈ scan.closed, block.2 ≤ (scan.ops ++ [instruction.op]).length ∧
      Balanced (between (scan.ops ++ [instruction.op]) block.1 block.2) := by
    intro block hm
    obtain ⟨hle, hbalanced⟩ := hb.closed block hm
    rw [between_append hle, List.length_append]
    exact ⟨Nat.le_add_right_of_le hle, hbalanced⟩
  rw [← hlength] at ho
  constructor <;> rw [hops]
  · exact Code.leavesOpen_concat hb.opened ho
  · intro block hm
    unfold closedAfter at hm
    split at hm
    · next start outer hop hopened =>
      rcases List.mem_cons.mp hm with rfl | hm
      · -- The block that ends here is the innermost open one, so behind its beginning all is closed.
        rw [← hlength, between_append (Nat.le_refl _), List.length_append]
        exact ⟨Nat.le_add_right _ _, (hopened ▸ hb.opened).balanced_between⟩
      · exact hkept block hm
    · exact hkept block hm

end Linked.Scan

namespace Linked

private theorem eq_or_precedes {blocks : List (Nat × Nat)} (hp : blocks.Pairwise Precedes)
    {block other : Nat × Nat} (hb : block ∈ blocks) (ho : other ∈ blocks) :
    block = other ∨ Precedes block other ∨ Precedes other block := by
  obtain ⟨front, back, rfl, hfront, hback⟩ := exists_split hp hb
  rcases List.mem_append.mp ho with ho | ho
  · exact .inr (.inr (hfront other ho))
  · rcases List.mem_cons.mp ho with rfl | ho
    · exact .inl rfl
    · exact .inr (.inl (hback other ho))

private theorem op?_eq_getElem? (instructions : Array Instruction) (index : Nat) :
    op? instructions index = (instructions.toList.map Instruction.op)[index]? := by
  simp [op?]

/-- Blocks that are found in a row of instructions, with balanced operations inside each, pair the
operations of the row. -/
theorem Paired.pairedBy {instructions : Array Instruction} {blocks : List (Nat × Nat)}
    (h : Paired instructions blocks)
    (hb : ∀ block ∈ blocks,
      Op.Balanced (Op.between (instructions.toList.map Instruction.op) block.1 block.2)) :
    Op.PairedBy (instructions.toList.map Instruction.op) (blocks.lookup ·) := by
  constructor
  · intro start
    simp only [h.lookup_eq_some_iff, ← op?_eq_getElem?]
    constructor
    · rintro ⟨stop, hm⟩
      exact (h.brackets _ hm).begins
    · rintro ⟨loop, hop⟩
      exact h.begins start loop hop
  · intro stop
    simp only [h.lookup_eq_some_iff, ← op?_eq_getElem?]
    constructor
    · rintro ⟨start, hm⟩
      exact (h.brackets _ hm).ends
    · exact h.ends stop
  · intro start other stop hs ho
    rw [h.lookup_eq_some_iff] at hs ho
    rcases eq_or_precedes h.ordered hs ho with heq | hlt | hlt
    · exact congrArg Prod.fst heq
    · exact absurd hlt.1 (Nat.lt_irrefl stop)
    · exact absurd hlt.1 (Nat.lt_irrefl stop)
  · intro start stop hs
    rw [h.lookup_eq_some_iff] at hs
    exact ⟨(h.brackets _ hs).lt, hb _ hs⟩
  · intro start stop other last hs ho
    rw [h.lookup_eq_some_iff] at hs ho
    rcases eq_or_precedes h.ordered hs ho with heq | hcases | hcases
    · exact .inl (congrArg Prod.fst heq)
    · simp only [Precedes] at hcases
      omega
    · simp only [Precedes] at hcases
      omega

end Linked

/-! ### The checks -/

namespace Code

open Op

/-- The records decode to these operations and to operands, every jump leads to an instruction or to
the end, the blocks are balanced, and every entry names an instruction or the end. -/
structure Acceptable (code : Code) (records : List Record) (ops : List Op) : Prop where
  payloads : records.map Record.op = ops.map .ok
  operands : ∀ record ∈ records, ∀ position < record.opcode.arity, ∃ operand,
    Operand.ofBytes (record.operands.bytes.drop (position * Packed.size Operand)) = .ok operand
  jumps : ∀ (index : Nat) op aim, ops[index]? = some op → op.jumpTarget? index = some aim →
    ∃ target ≤ records.length, aim = some target
  blocks : Balanced ops
  entries : ∀ entry ∈ code.entries, entry.instruction ≤ records.length

variable {code : Code} {records : List Record} {linked : Linked}

private theorem acceptable_of_linkRecords (hr : code.records = .ok records)
    (h : code.linkRecords records = .ok linked) :
    code.Acceptable records (linked.instructions.toList.map Instruction.op) := by
  obtain ⟨hrow, -⟩ := Record.readAll_eq_ok_iff.mp hr
  obtain ⟨-, hm, hopen⟩ := linkRecords_decodes h
  obtain ⟨hops, hlengths⟩ := decoded_of_instructions hm
  refine ⟨hops, ?_, ?_, ?_, ?_⟩
  · intro record hrecord
    exact (hrow.wellFormed record hrecord).length_toList_eq_iff.mp (hlengths record hrecord)
  · intro index op aim hget haim
    rw [← Linked.op?_eq_getElem?] at hget
    obtain ⟨instruction, hi, rfl⟩ := Option.map_eq_some_iff.mp hget
    have hjump := (sound_of_linkRecords h).jumps index instruction hi
    rw [size_instructions_of_linkRecords h] at hjump
    exact Linked.jumpStays_eq_true_iff.mp hjump aim haim
  · exact leavesOpen_nil_iff.mp (openAfterAll_eq_ok_iff.mp hopen)
  · obtain ⟨scan, -, -, hentries, -⟩ := linkRecords_eq_ok_iff.mp h
    exact hentries

private theorem pairedBy_of_linkRecords (h : code.linkRecords records = .ok linked) :
    PairedBy (linked.instructions.toList.map Instruction.op) (linked.blocks.lookup ·) := by
  apply (paired_of_linkRecords h).pairedBy
  obtain ⟨scan, hs, -, -, rfl⟩ := linkRecords_eq_ok_iff.mp h
  have hb := Outcome.foldlM_keeps (fun s r t hk ht => Linked.Scan.Balances.step hk ht)
    Linked.Scan.balances_empty hs
  intro block hm
  exact (hb.closed block (List.mem_reverse.mp hm)).2

/-- Acceptable code whose builder left no block open can be refused for nothing that is checked. -/
theorem isOk_finalize_of_acceptable (hopen : code.openBlocks = []) {ops : List Op}
    (hr : code.records = .ok records) (h : code.Acceptable records ops) :
    code.finalize.isOk = true := by
  obtain ⟨hrow, -⟩ := Record.readAll_eq_ok_iff.mp hr
  have hlengths : ∀ record ∈ records, record.operands.toList.length = record.opcode.arity := by
    intro record hrecord
    exact (hrow.wellFormed record hrecord).length_toList_eq_iff.mpr (h.operands record hrecord)
  obtain ⟨instructions, hm, rfl⟩ := Record.exists_instructions h.payloads hlengths
  have hclosed := openAfterAll_eq_ok_iff.mpr (leavesOpen_nil_iff.mpr h.blocks)
  cases hf : code.finalize with
  | ok linked => rfl
  | error fault =>
    rcases finalize_eq_error_of_closed hr hm hclosed hopen hf with
      ⟨index, op, hget, hleaves, -⟩ | ⟨entry, hentry, hlt, -⟩
    · have hstays := Linked.jumpStays_eq_true_iff.mpr (h.jumps index op · hget)
      rw [hstays] at hleaves
      cases hleaves
    · exact absurd (h.entries entry hentry) (Nat.not_le.mpr hlt)

/-- Code whose builder left no block open passes the checks just when its buffer can be read and is
acceptable, and the blocks that the checks then return are paired as its operations say. -/
theorem finalize_accepts_iff (hopen : code.openBlocks = []) :
    (code.finalize.isOk = true ↔
      ∃ records ops, code.records = .ok records ∧ code.Acceptable records ops) ∧
    ∀ linked, code.finalize = .ok linked → ∃ records ops, code.records = .ok records ∧
      records.map Record.op = ops.map .ok ∧ PairedBy ops (linked.blocks.lookup ·) := by
  refine ⟨⟨?_, ?_⟩, ?_⟩
  · intro h
    obtain ⟨linked, hf⟩ := Outcome.isOk_iff.mp h
    obtain ⟨-, records, hr, hl⟩ := finalize_eq_ok_iff.mp hf
    exact ⟨records, _, hr, acceptable_of_linkRecords hr hl⟩
  · rintro ⟨records, ops, hr, h⟩
    exact isOk_finalize_of_acceptable hopen hr h
  · intro linked hf
    obtain ⟨-, records, hr, hl⟩ := finalize_eq_ok_iff.mp hf
    exact ⟨records, _, hr, (acceptable_of_linkRecords hr hl).payloads, pairedBy_of_linkRecords hl⟩

/-- A call inside a block inside a block, and the same with a second operand that is malformed. -/
theorem finalize_accepts_iff_nested :
    let begins : List UInt8 := [81, 0, 1, 0, 0, 0, 0, 0, 0, 0, 0, 0, 1, 0, 0, 0, 0, 0]
    let call : List UInt8 := [2, 0, 3, 0, 0, 0, 0, 0, 2, 0, 0, 0, 0, 0]
    let operand : List UInt8 := [1, 1, 0, 0, 5, 0, 0, 0]
    let malformed : List UInt8 := [1, 3, 0, 0, 5, 0, 0, 0]
    let code : Code :=
      { buffer := begins ++ begins ++ call ++ operand ++ [82, 0, 82, 0], count := 5,
        entries := [{ name := "end", instruction := 5 }] }
    let spoilt : Code :=
      { code with buffer := begins ++ begins ++ call ++ malformed ++ [82, 0, 82, 0] }
    (∃ records ops, code.records = .ok records ∧ code.Acceptable records ops) ∧
      (∃ ops pair, PairedBy ops pair ∧ pair 0 = some 4 ∧ pair 1 = some 3) ∧
      ¬ ∃ records ops, spoilt.records = .ok records ∧ spoilt.Acceptable records ops := by
  intro begins call operand malformed code spoilt
  have haccepted : code.finalize.isOk = true := by decide +kernel
  have hblocks : code.finalize.map (·.blocks) = .ok [(1, 3), (0, 4)] := by decide +kernel
  have hrefused : ¬ spoilt.finalize.isOk = true := by decide +kernel
  obtain ⟨hiff, hpaired⟩ := @finalize_accepts_iff code rfl
  obtain ⟨linked, hf, hlinked⟩ := Outcome.map_eq_ok.mp hblocks
  obtain ⟨records, ops, -, -, hpair⟩ := hpaired linked hf
  rw [hlinked] at hpair
  refine ⟨hiff.mp haccepted, ⟨ops, _, hpair, rfl, rfl⟩, ?_⟩
  exact mt (@finalize_accepts_iff spoilt rfl).1.mpr hrefused

end Code

end RegisterMachine
