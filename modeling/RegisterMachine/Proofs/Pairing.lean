import RegisterMachine.Program
import RegisterMachine.Proofs.Linking

/-!
# How blocks are paired

Linking pairs every instruction that begins a block with one that ends it. The blocks come in the
order they end, and of any two the first lies inside the second or in front of it. So the blocks
around an instruction, of which `Program.chain` is the list, form one nested row, and going from one
instruction to the next changes that row at its inner end only.
-/

namespace RegisterMachine

namespace Linked

def op? (instructions : Array Instruction) (index : Nat) : Option Op :=
  instructions[index]?.map Instruction.op

private theorem op?_push {instructions : Array Instruction} {instruction : Instruction}
    {index : Nat} :
    op? (instructions.push instruction) index =
      if index = instructions.size then some instruction.op else op? instructions index := by
  simp only [op?, Array.getElem?_push]
  split <;> rfl

private theorem lt_of_op? {instructions : Array Instruction} {index : Nat} {op : Op}
    (h : op? instructions index = some op) : index < instructions.size := by
  obtain ⟨instruction, hi, -⟩ := Option.map_eq_some_iff.mp h
  obtain ⟨hlt, -⟩ := Array.getElem?_eq_some_iff.mp hi
  exact hlt

private theorem op?_push_of_op? {instructions : Array Instruction} {instruction : Instruction}
    {index : Nat} {op : Op} (h : op? instructions index = some op) :
    op? (instructions.push instruction) index = some op := by
  have hlt := lt_of_op? h
  rw [op?_push, if_neg (Nat.ne_of_lt hlt), h]

/-- The first block ends before the second does: it lies inside the second or in front of it. -/
def Precedes (first second : Nat × Nat) : Prop :=
  first.2 < second.2 ∧ (second.1 < first.1 ∨ first.2 < second.1)

/-- The instructions that a block stands for begin and end it. -/
structure Brackets (instructions : Array Instruction) (block : Nat × Nat) : Prop where
  lt : block.1 < block.2
  begins : ∃ loop, op? instructions block.1 = some (.beginBlock loop)
  ends : op? instructions block.2 = some .endBlock

private theorem Brackets.push {instructions : Array Instruction} {block : Nat × Nat}
    (h : Brackets instructions block) (instruction : Instruction) :
    Brackets (instructions.push instruction) block where
  lt := h.lt
  begins := by
    obtain ⟨loop, hl⟩ := h.begins
    exact ⟨loop, op?_push_of_op? hl⟩
  ends := op?_push_of_op? h.ends

/-- Every instruction that begins or ends a block does so for one of `blocks`, and these are properly
nested. -/
structure Paired (instructions : Array Instruction) (blocks : List (Nat × Nat)) : Prop where
  ordered : blocks.Pairwise Precedes
  brackets : ∀ block ∈ blocks, Brackets instructions block
  begins : ∀ index loop, op? instructions index = some (.beginBlock loop) →
    ∃ stop, (index, stop) ∈ blocks
  ends : ∀ index, op? instructions index = some .endBlock → ∃ start, (start, index) ∈ blocks

namespace Scan

/-- The blocks that a pass has found so far: those closed are nested, and each of those open lies
around a closed one or behind it. -/
structure Nested (scan : Scan) : Prop where
  opened : scan.opened.Pairwise (· > ·)
  openedBegins : ∀ start ∈ scan.opened, ∃ loop, op? scan.instructions start = some (.beginBlock loop)
  ordered : scan.closed.Pairwise fun later earlier => Precedes earlier later
  brackets : ∀ block ∈ scan.closed, Brackets scan.instructions block
  apart : ∀ start ∈ scan.opened, ∀ block ∈ scan.closed, start < block.1 ∨ block.2 < start
  ends : ∀ index, op? scan.instructions index = some .endBlock →
    ∃ start, (start, index) ∈ scan.closed

private theorem nested_empty : Nested {} where
  opened := .nil
  openedBegins := nofun
  ordered := .nil
  brackets := nofun
  apart := nofun
  ends := by simp [op?]

section

variable {instructions : Array Instruction} {opened : List Nat} {closed : List (Nat × Nat)}
  {instruction : Instruction}

private theorem Nested.pushPlain (h : Nested { instructions, opened, closed })
    (he : instruction.op ≠ .endBlock) :
    Nested { instructions := instructions.push instruction, opened, closed } where
  opened := h.opened
  openedBegins := by
    intro start hs
    obtain ⟨loop, hl⟩ := h.openedBegins start hs
    exact ⟨loop, op?_push_of_op? hl⟩
  ordered := h.ordered
  brackets block hm := (h.brackets block hm).push instruction
  apart := h.apart
  ends := by
    intro index hi
    rw [op?_push] at hi
    split at hi
    · exact absurd (Option.some.inj hi) he
    · exact h.ends index hi

private theorem Nested.pushBegin (h : Nested { instructions, opened, closed }) {loop : Loop}
    (hop : instruction.op = .beginBlock loop) :
    Nested { instructions := instructions.push instruction, opened := instructions.size :: opened,
             closed } where
  opened := by
    refine List.pairwise_cons.mpr ⟨?_, h.opened⟩
    intro start hs
    obtain ⟨loop, hl⟩ := h.openedBegins start hs
    exact lt_of_op? hl
  openedBegins := by
    intro start hs
    rcases List.mem_cons.mp hs with rfl | hs
    · exact ⟨loop, by rw [op?_push, if_pos rfl, hop]⟩
    · obtain ⟨loop, hl⟩ := h.openedBegins start hs
      exact ⟨loop, op?_push_of_op? hl⟩
  ordered := h.ordered
  brackets block hm := (h.brackets block hm).push instruction
  apart := by
    intro start hs block hm
    rcases List.mem_cons.mp hs with rfl | hs
    · exact .inr (lt_of_op? (h.brackets block hm).ends)
    · exact h.apart start hs block hm
  ends := by
    intro index hi
    rw [op?_push] at hi
    split at hi
    · rw [hop] at hi
      cases hi
    · exact h.ends index hi

private theorem Nested.pushEnd {start : Nat}
    (h : Nested { instructions, opened := start :: opened, closed })
    (hop : instruction.op = .endBlock) :
    Nested { instructions := instructions.push instruction, opened,
             closed := (start, instructions.size) :: closed } where
  opened := (List.pairwise_cons.mp h.opened).2
  openedBegins := by
    intro outer ho
    obtain ⟨loop, hl⟩ := h.openedBegins outer (List.mem_cons_of_mem _ ho)
    exact ⟨loop, op?_push_of_op? hl⟩
  ordered := by
    refine List.pairwise_cons.mpr ⟨?_, h.ordered⟩
    intro block hm
    exact ⟨lt_of_op? (h.brackets block hm).ends, h.apart start List.mem_cons_self block hm⟩
  brackets := by
    intro block hm
    rcases List.mem_cons.mp hm with rfl | hm
    · obtain ⟨loop, hl⟩ := h.openedBegins start List.mem_cons_self
      exact ⟨lt_of_op? hl, ⟨loop, op?_push_of_op? hl⟩, by rw [op?_push, if_pos rfl, hop]⟩
    · exact (h.brackets block hm).push instruction
  apart := by
    intro outer ho block hm
    rcases List.mem_cons.mp hm with rfl | hm
    · exact .inl ((List.pairwise_cons.mp h.opened).1 outer ho)
    · exact h.apart outer (List.mem_cons_of_mem _ ho) block hm
  ends := by
    intro index hi
    rw [op?_push] at hi
    split at hi
    · next heq => exact ⟨start, heq ▸ List.mem_cons_self⟩
    · obtain ⟨other, hm⟩ := h.ends index hi
      exact ⟨other, List.mem_cons_of_mem _ hm⟩

end

private theorem Nested.step {count : Nat} {scan next : Scan} {record : Record} (hn : Nested scan)
    (h : scan.step count record = .ok next) : Nested next := by
  obtain ⟨instruction, opened, -, -, ho, rfl⟩ := step_eq_ok_iff.mp h
  obtain ⟨instructions, opens, closed⟩ := scan
  cases hop : instruction.op with
  | beginBlock loop =>
    rw [hop] at ho
    cases ho
    exact hn.pushBegin hop
  | endBlock =>
    rw [hop] at ho
    cases opens with
    | nil => cases ho
    | cons start outer =>
      cases ho
      exact hn.pushEnd hop
  | _ =>
    rw [hop] at ho
    cases ho
    exact hn.pushPlain (by simp [hop])

end Scan

end Linked

open Linked

theorem mem_of_lookup {blocks : List (Nat × Nat)} {start stop : Nat}
    (h : blocks.lookup start = some stop) : (start, stop) ∈ blocks := by
  obtain ⟨front, back, hsplit, -⟩ := List.lookup_eq_some_iff.mp h
  rw [hsplit]
  simp

theorem Code.paired_of_linkRecords {code : Code} {records : List Record} {linked : Linked}
    (h : code.linkRecords records = .ok linked) : Paired linked.instructions linked.blocks := by
  obtain ⟨scan, hs, -, -, rfl⟩ := linkRecords_eq_ok_iff.mp h
  have hn := Outcome.foldlM_keeps (fun s r t hk ht => Scan.Nested.step hk ht) Scan.nested_empty hs
  refine ⟨List.pairwise_reverse.mpr hn.ordered, ?_, ?_, ?_⟩
  · intro block hm
    exact hn.brackets block (List.mem_reverse.mp hm)
  · intro index loop hi
    obtain ⟨instruction, hget, hop⟩ := Option.map_eq_some_iff.mp hi
    obtain ⟨stop, hstop, -⟩ := (sound_of_linkRecords h).blocks index instruction loop hget hop
    exact ⟨stop, mem_of_lookup hstop⟩
  · intro index hi
    obtain ⟨start, hm⟩ := hn.ends index hi
    exact ⟨start, List.mem_reverse.mpr hm⟩

/-! ### The blocks around an instruction -/

namespace Linked

/-- The blocks around an instruction, innermost first. A block is around the instructions behind its
first one, up to and with its last. -/
def around (blocks : List (Nat × Nat)) (index : Nat) : List (Nat × Nat) :=
  blocks.filter fun block => block.1 < index ∧ index ≤ block.2

private theorem mem_around {blocks : List (Nat × Nat)} {index : Nat} {block : Nat × Nat} :
    block ∈ around blocks index ↔ block ∈ blocks ∧ block.1 < index ∧ index ≤ block.2 := by
  simp [around]

variable {blocks : List (Nat × Nat)} {start stop index : Nat}

private theorem around_congr {other : Nat}
    (h : ∀ block ∈ blocks, (block.1 < other ∧ other ≤ block.2) ↔ (block.1 < index ∧ index ≤ block.2)) :
    around blocks other = around blocks index := by
  apply List.filter_congr
  intro block hm
  exact decide_eq_decide.mpr (h block hm)

theorem exists_split (hp : blocks.Pairwise Precedes) (hm : (start, stop) ∈ blocks) :
    ∃ front back, blocks = front ++ (start, stop) :: back ∧
      (∀ block ∈ front, Precedes block (start, stop)) ∧
      ∀ block ∈ back, Precedes (start, stop) block := by
  obtain ⟨front, back, rfl⟩ := List.append_of_mem hm
  obtain ⟨-, hback, hfront⟩ := List.pairwise_append.mp hp
  refine ⟨front, back, rfl, ?_, (List.pairwise_cons.mp hback).1⟩
  intro block hb
  exact hfront block hb (start, stop) List.mem_cons_self

/-- An instruction of a block that is in no block further inside has that block around it, and then
those that are around the block. -/
theorem around_inside (hp : blocks.Pairwise Precedes) (hm : (start, stop) ∈ blocks)
    (hlt : start < index) (hle : index ≤ stop)
    (hinner : ∀ block ∈ blocks, start < block.1 → block.2 < stop →
      ¬ (block.1 < index ∧ index ≤ block.2)) :
    around blocks index = (start, stop) :: around blocks start := by
  obtain ⟨front, back, rfl, hfront, hback⟩ := exists_split hp hm
  have hnone : around front index = [] := by
    apply List.filter_eq_nil_iff.mpr
    intro block hb
    have hcases := hfront block hb
    have hinner := hinner block (List.mem_append_left _ hb)
    simp only [Precedes, decide_eq_true_eq] at hcases ⊢
    omega
  have hstart : around front start = [] := by
    apply List.filter_eq_nil_iff.mpr
    intro block hb
    have hcases := hfront block hb
    simp only [Precedes, decide_eq_true_eq] at hcases ⊢
    omega
  have hsame : around back index = around back start := by
    apply around_congr
    intro block hb
    have hcases := hback block hb
    simp only [Precedes] at hcases
    omega
  unfold around at *
  simp only [List.filter_append, List.filter_cons, hnone, hstart, hsame, hlt, hle, and_self,
    Nat.lt_irrefl, false_and, decide_true, decide_false, ↓reduceIte, Bool.false_eq_true,
    List.nil_append]

theorem around_begin (hp : blocks.Pairwise Precedes) (hm : (start, stop) ∈ blocks)
    (hlt : start < stop) : around blocks (start + 1) = (start, stop) :: around blocks start := by
  apply around_inside hp hm (Nat.lt_succ_self start) hlt
  intro block hb hin hout
  omega

theorem around_end (hp : blocks.Pairwise Precedes) (hm : (start, stop) ∈ blocks)
    (hlt : start < stop) : around blocks stop = (start, stop) :: around blocks start := by
  apply around_inside hp hm hlt (Nat.le_refl stop)
  intro block hb hin hout
  omega

theorem around_behind (hp : blocks.Pairwise Precedes) (hm : (start, stop) ∈ blocks)
    (hlt : start < stop) : around blocks (stop + 1) = around blocks start := by
  obtain ⟨front, back, rfl, hfront, hback⟩ := exists_split hp hm
  apply around_congr
  intro block hb
  rcases List.mem_append.mp hb with hb | hb
  · have hcases := hfront block hb
    simp only [Precedes] at hcases
    omega
  · rcases List.mem_cons.mp hb with rfl | hb
    · dsimp only
      omega
    · have hcases := hback block hb
      simp only [Precedes] at hcases
      omega

/-- An instruction that neither begins nor ends a block has the same blocks around it as the next. -/
theorem Paired.around_succ {instructions : Array Instruction} (h : Paired instructions blocks)
    (hb : ∀ loop, op? instructions index ≠ some (.beginBlock loop))
    (he : op? instructions index ≠ some .endBlock) :
    around blocks (index + 1) = around blocks index := by
  apply around_congr
  intro block hm
  obtain ⟨hlt, ⟨loop, hbegin⟩, hend⟩ := h.brackets block hm
  have hfirst : block.1 ≠ index := by
    rintro rfl
    exact hb loop hbegin
  have hlast : block.2 ≠ index := by
    rintro rfl
    exact he hend
  omega

theorem Paired.lookup_eq_some_iff {instructions : Array Instruction}
    (h : Paired instructions blocks) : blocks.lookup start = some stop ↔ (start, stop) ∈ blocks := by
  constructor
  · exact mem_of_lookup
  · intro hm
    have hsome : (blocks.lookup start).isSome = true :=
      List.lookup_isSome_iff.mpr ⟨_, hm, beq_self_eq_true start⟩
    obtain ⟨found, hfound⟩ := Option.isSome_iff_exists.mp hsome
    -- Two blocks with one beginning would precede each other, which their ends do not allow.
    obtain ⟨front, back, hsplit, hfront, hback⟩ := exists_split h.ordered (mem_of_lookup hfound)
    have hlt := (h.brackets _ hm).lt
    have hother := (h.brackets _ (mem_of_lookup hfound)).lt
    rw [hsplit] at hm
    rcases List.mem_append.mp hm with hm | hm
    · have hcases := hfront _ hm
      simp only [Precedes] at hcases hlt hother
      omega
    · rcases List.mem_cons.mp hm with heq | hm
      · rw [hfound, (Prod.mk.inj heq).2]
      · have hcases := hback _ hm
        simp only [Precedes] at hcases hlt hother
        omega

/-- Of the blocks around an instruction each lies inside the next. -/
theorem Paired.pairwise_around {instructions : Array Instruction} (h : Paired instructions blocks)
    (index : Nat) :
    (around blocks index).Pairwise fun inner outer => outer.1 < inner.1 ∧ inner.2 < outer.2 := by
  have hsub : (around blocks index).Pairwise Precedes := h.ordered.sublist List.filter_sublist
  apply hsub.imp_of_mem
  intro inner outer hi ho hcases
  obtain ⟨-, -, hle⟩ := mem_around.mp hi
  obtain ⟨-, hlt, -⟩ := mem_around.mp ho
  simp only [Precedes] at hcases
  omega

end Linked

namespace Program

/-- The blocks around an instruction, outermost first. -/
def chain (program : Program) (index : Nat) : List (Nat × Nat) :=
  (around program.linked.blocks index).reverse

/-- The blocks of a program are paired as its instructions say. -/
def BlocksPaired (program : Program) : Prop :=
  Paired program.linked.instructions program.linked.blocks

theorem blocksPaired_of_ofCode {code : Code} {program : Program} (h : ofCode code = .ok program) :
    program.BlocksPaired := by
  obtain ⟨linked, hf, h⟩ := Outcome.bind_eq_ok.mp h
  cases h
  obtain ⟨-, records, -, hl⟩ := Code.finalize_eq_ok_iff.mp hf
  exact Code.paired_of_linkRecords hl

variable {program : Program} {index : Nat}

theorem BlocksPaired.mem_chain_iff (h : program.BlocksPaired) {start stop : Nat} :
    (start, stop) ∈ program.chain index ↔
      program.blockEnd? start = some stop ∧ start < index ∧ index ≤ stop := by
  rw [chain, List.mem_reverse, mem_around, blockEnd?, h.lookup_eq_some_iff]

theorem BlocksPaired.pairwise_chain (h : program.BlocksPaired) (index : Nat) :
    (program.chain index).Pairwise fun outer inner => outer.1 < inner.1 ∧ inner.2 < outer.2 :=
  List.pairwise_reverse.mpr (h.pairwise_around index)

end Program

end RegisterMachine
