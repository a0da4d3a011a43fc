import RegisterMachine.Code.Link
import RegisterMachine.Proofs.Outcomes

/-!
# What linking finds out

Linking looks at a row of records only through the instructions that they decode to. When it
succeeds, every record has been decoded, every jump has a target in the stream, and every block
that begins has an end.
-/

namespace RegisterMachine

namespace Code

/-- The blocks still open after a row of operations, of which the first is number `index`. -/
def openAfterAll : Nat → List Op → List Nat → Except Fault (List Nat)
  | _, [], opened => .ok opened
  | index, op :: ops, opened => do
    let opened ← openAfter index op opened
    openAfterAll (index + 1) ops opened

theorem openAfterAll_append {index : Nat} {ops more : List Op} {opened mid : List Nat}
    (h : openAfterAll index ops opened = .ok mid) :
    openAfterAll index (ops ++ more) opened = openAfterAll (index + ops.length) more mid := by
  induction ops generalizing index opened with
  | nil =>
    cases h
    rfl
  | cons op ops ih =>
    obtain ⟨next, hn, hr⟩ := Outcome.bind_eq_ok.mp h
    rw [List.cons_append, openAfterAll, hn, List.length_cons, Nat.add_comm ops.length,
      ← Nat.add_assoc, ← ih hr]
    rfl

theorem openAfterAll_singleton (index : Nat) (op : Op) (opened : List Nat) :
    openAfterAll index [op] opened = openAfter index op opened := by
  cases h : openAfter index op opened <;> simp [openAfterAll, h, bind, Except.bind]

end Code

namespace Linked

/-- The closed blocks after the operation number `index`. -/
def closedAfter (index : Nat) (op : Op) (opened : List Nat) (closed : List (Nat × Nat)) :
    List (Nat × Nat) :=
  match op, opened with
  | .endBlock, start :: _ => (start, index) :: closed
  | _, _ => closed

private theorem mem_closedAfter {index : Nat} {op : Op} {opened : List Nat}
    {closed : List (Nat × Nat)} {pair : Nat × Nat} (h : pair ∈ closed) :
    pair ∈ closedAfter index op opened closed := by
  unfold closedAfter
  split
  · exact List.mem_cons_of_mem _ h
  · exact h

namespace Scan

/-- A record passes when it decodes, its jump stays, and it closes no block that is not open. -/
theorem step_eq_ok_iff {count : Nat} {scan next : Scan} {record : Record} :
    scan.step count record = .ok next ↔
      ∃ instruction opened, record.instruction = .ok instruction ∧
        jumpStays count scan.instructions.size instruction.op = true ∧
        Code.openAfter scan.instructions.size instruction.op scan.opened = .ok opened ∧
        next = { instructions := scan.instructions.push instruction, opened,
                 closed := closedAfter scan.instructions.size instruction.op scan.opened
                   scan.closed } := by
  unfold step
  constructor
  · intro h
    obtain ⟨instruction, hi, h⟩ := Outcome.bind_eq_ok.mp h
    split at h
    · cases h
    · next hj =>
      obtain ⟨opened, ho, h⟩ := Outcome.bind_eq_ok.mp h
      refine ⟨instruction, opened, Outcome.mapError_eq_ok.mp hi, by simpa using hj, ho, ?_⟩
      cases h
      rfl
  · rintro ⟨instruction, opened, hi, hj, ho, rfl⟩
    simp only [Outcome.mapError_eq_ok.mpr hi, hj, ho, bind, Except.bind]
    rfl

private theorem step_congr (count : Nat) (scan : Scan) {record other : Record}
    (h : record.instruction = other.instruction) :
    scan.step count record = scan.step count other := by
  simp only [step, h]

private theorem foldlM_step_congr (count : Nat) (scan : Scan) {records others : List Record}
    (h : records.map Record.instruction = others.map Record.instruction) :
    records.foldlM (step count) scan = others.foldlM (step count) scan := by
  induction records generalizing others scan with
  | nil =>
    cases others with
    | nil => rfl
    | cons other others => cases h
  | cons record records ih =>
    cases others with
    | nil => cases h
    | cons other others =>
      obtain ⟨hi, hr⟩ := List.cons.inj h
      rw [List.foldlM_cons, List.foldlM_cons, step_congr count scan hi]
      exact congrArg _ (funext fun next => ih next hr)

/-- A pass over records collects what they decode to and opens and closes blocks as they say. -/
theorem foldlM_step_decodes {count : Nat} {scan final : Scan} {records : List Record}
    (h : records.foldlM (step count) scan = .ok final) :
    ∃ instructions : List Instruction,
      records.map Record.instruction = instructions.map .ok ∧
      final.instructions.toList = scan.instructions.toList ++ instructions ∧
      Code.openAfterAll scan.instructions.size (instructions.map Instruction.op) scan.opened =
        .ok final.opened := by
  induction records generalizing scan with
  | nil =>
    cases h
    exact ⟨[], rfl, by simp, rfl⟩
  | cons record records ih =>
    obtain ⟨next, hn, hr⟩ := Outcome.bind_eq_ok.mp h
    obtain ⟨instruction, opened, hi, -, ho, rfl⟩ := step_eq_ok_iff.mp hn
    obtain ⟨instructions, hm, hf, hopen⟩ := ih hr
    refine ⟨instruction :: instructions, ?_, ?_, ?_⟩
    · rw [List.map_cons, List.map_cons, hi, hm]
    · simp [hf]
    · rw [Array.size_push] at hopen
      rw [List.map_cons, Code.openAfterAll, ho]
      exact hopen

/-- What a pass over a stream of `count` has made sure of so far. -/
structure Checked (count : Nat) (scan : Scan) : Prop where
  jumps : ∀ index instruction, scan.instructions[index]? = some instruction →
    jumpStays count index instruction.op = true
  begins : ∀ index instruction loop, scan.instructions[index]? = some instruction →
    instruction.op = .beginBlock loop →
    index ∈ scan.opened ∨ ∃ stop, (index, stop) ∈ scan.closed
  ends : ∀ pair ∈ scan.closed, pair.2 < scan.instructions.size

private theorem checked_empty (count : Nat) : Checked count {} where
  jumps := by simp
  begins := by simp
  ends := by simp

/-- An open block stays open or is closed by the operation that comes next. -/
theorem mem_openAfter {index start : Nat} {op : Op} {opened next : List Nat}
    (h : Code.openAfter index op opened = .ok next) (hs : start ∈ opened)
    (closed : List (Nat × Nat)) :
    start ∈ next ∨ ∃ stop, (start, stop) ∈ closedAfter index op opened closed := by
  unfold Code.openAfter at h
  split at h
  · cases h
    exact .inl (List.mem_cons_of_mem _ hs)
  · next top outer =>
    cases h
    rcases List.mem_cons.mp hs with rfl | hs
    · exact .inr ⟨index, List.mem_cons_self⟩
    · exact .inl hs
  · cases h
  · cases h
    exact .inl hs

private theorem Checked.step {count : Nat} {scan next : Scan} {record : Record}
    (hc : Checked count scan) (h : scan.step count record = .ok next) : Checked count next := by
  obtain ⟨instruction, opened, -, hj, ho, rfl⟩ := step_eq_ok_iff.mp h
  refine ⟨?_, ?_, ?_⟩
  · intro index other hi
    rw [Array.getElem?_push] at hi
    split at hi
    · next heq =>
      cases hi
      rwa [heq]
    · exact hc.jumps index other hi
  · intro index other loop hi hop
    rw [Array.getElem?_push] at hi
    split at hi
    · next heq =>
      cases hi
      rw [hop] at ho
      cases ho
      exact .inl (heq ▸ List.mem_cons_self)
    · rcases hc.begins index other loop hi hop with hopen | ⟨stop, hstop⟩
      · exact mem_openAfter ho hopen scan.closed
      · exact .inr ⟨stop, mem_closedAfter hstop⟩
  · intro pair hp
    simp only [Array.size_push]
    unfold closedAfter at hp
    split at hp
    · rcases List.mem_cons.mp hp with rfl | hp
      · exact Nat.lt_succ_self _
      · exact Nat.lt_succ_of_lt (hc.ends pair hp)
    · exact Nat.lt_succ_of_lt (hc.ends pair hp)

end Scan

/-- What code that passed the checks is known to hold. -/
structure Sound (linked : Linked) : Prop where
  decoded : linked.records.map Record.instruction = linked.instructions.toList.map .ok
  jumps : ∀ index instruction, linked.instructions[index]? = some instruction →
    jumpStays linked.instructions.size index instruction.op = true
  blocks : ∀ index instruction loop, linked.instructions[index]? = some instruction →
    instruction.op = .beginBlock loop →
    ∃ stop, linked.blocks.lookup index = some stop ∧ stop < linked.instructions.size

end Linked

namespace Code

open Linked

theorem linkRecords_eq_ok_iff {code : Code} {records : List Record} {linked : Linked} :
    code.linkRecords records = .ok linked ↔
      ∃ scan, records.foldlM (Scan.step records.length) {} = .ok scan ∧ scan.opened = [] ∧
        (∀ entry ∈ code.entries, entry.instruction ≤ records.length) ∧
        linked = { records, instructions := scan.instructions, blocks := scan.closed.reverse } := by
  unfold linkRecords
  rw [Outcome.bind_eq_ok]
  apply exists_congr
  intro scan
  apply and_congr_right
  intro _
  cases ho : scan.opened with
  | cons start outer => simp
  | nil =>
    by_cases he : code.entries.any (records.length < ·.instruction) = true
    · have hn : ¬ ∀ entry ∈ code.entries, entry.instruction ≤ records.length := by
        simpa using he
      simp [he, hn]
    · have hy : ∀ entry ∈ code.entries, entry.instruction ≤ records.length := by
        simpa using he
      simp only [he, Bool.false_eq_true, ↓reduceIte, Outcome.pure_eq_ok]
      exact ⟨fun h => ⟨trivial, hy, h.symm⟩, fun h => h.2.2.symm⟩

theorem finalize_eq_ok_iff {code : Code} {linked : Linked} :
    code.finalize = .ok linked ↔
      code.openBlocks = [] ∧
        ∃ records, code.records = .ok records ∧ code.linkRecords records = .ok linked := by
  unfold finalize
  cases code.openBlocks with
  | nil => simp [link, Outcome.bind_eq_ok]
  | cons start outer => simp

/-- Records that decode to the same instructions are linked in the same way. -/
theorem linkRecords_congr {code other : Code} {records others : List Record} {linked : Linked}
    (he : other.entries = code.entries)
    (hi : others.map Record.instruction = records.map Record.instruction)
    (h : code.linkRecords records = .ok linked) :
    other.linkRecords others = .ok { linked with records := others } := by
  have hl : others.length = records.length := by simpa using congrArg List.length hi
  obtain ⟨scan, hs, ho, hentries, rfl⟩ := linkRecords_eq_ok_iff.mp h
  refine linkRecords_eq_ok_iff.mpr ⟨scan, ?_, ho, ?_, rfl⟩
  · rw [hl, Scan.foldlM_step_congr _ _ hi]
    exact hs
  · rwa [hl, he]

/-- Linking decodes every record and leaves no block open. -/
theorem linkRecords_decodes {code : Code} {records : List Record} {linked : Linked}
    (h : code.linkRecords records = .ok linked) :
    linked.records = records ∧
      records.map Record.instruction = linked.instructions.toList.map .ok ∧
      openAfterAll 0 (linked.instructions.toList.map Instruction.op) [] = .ok [] := by
  obtain ⟨scan, hs, ho, -, rfl⟩ := linkRecords_eq_ok_iff.mp h
  obtain ⟨instructions, hm, hf, hopen⟩ := Scan.foldlM_step_decodes hs
  simp only [List.nil_append] at hf
  rw [ho] at hopen
  exact ⟨rfl, by rw [hf, hm], by rw [hf]; exact hopen⟩

theorem size_instructions_of_linkRecords {code : Code} {records : List Record} {linked : Linked}
    (h : code.linkRecords records = .ok linked) : linked.instructions.size = records.length := by
  obtain ⟨-, hm, -⟩ := linkRecords_decodes h
  simpa using (congrArg List.length hm).symm

theorem sound_of_linkRecords {code : Code} {records : List Record} {linked : Linked}
    (h : code.linkRecords records = .ok linked) : linked.Sound := by
  obtain ⟨hr, hm, -⟩ := linkRecords_decodes h
  have hsize := size_instructions_of_linkRecords h
  obtain ⟨scan, hs, ho, -, rfl⟩ := linkRecords_eq_ok_iff.mp h
  have hc := Outcome.foldlM_keeps (fun s r t hk ht => Scan.Checked.step hk ht)
    (Scan.checked_empty records.length) hs
  refine ⟨hm, ?_, ?_⟩
  · intro index instruction hi
    rw [hsize]
    exact hc.jumps index instruction hi
  · intro index instruction loop hi hop
    rcases hc.begins index instruction loop hi hop with hopen | ⟨stop, hstop⟩
    · rw [ho] at hopen
      cases hopen
    · have hsome : (scan.closed.reverse.lookup index).isSome = true :=
        List.lookup_isSome_iff.mpr ⟨_, List.mem_reverse.mpr hstop, beq_self_eq_true index⟩
      obtain ⟨found, hf⟩ := Option.isSome_iff_exists.mp hsome
      obtain ⟨front, back, hsplit, -⟩ := List.lookup_eq_some_iff.mp hf
      have hmem : (index, found) ∈ scan.closed := by
        rw [← List.mem_reverse, hsplit]
        simp
      exact ⟨found, hf, hc.ends _ hmem⟩

end Code

end RegisterMachine
