import RegisterMachine.Proofs.Construction

/-!
# Editing code

A compiler gives one edit after the other: directives, entries and layouts. An edit that is refused
leaves the code as it was. `Edit.Admissible` says what an edit must meet to be granted, and
`Code.carriedOut` which directives of a row were carried out.
-/

namespace RegisterMachine

namespace Code

inductive Edit
  | add (directive : Directive)
  | addEntry (name : String) (instruction : Nat)
  | align (alignment : Nat)

inductive Reply
  /-- A record was written at this offset. -/
  | written (offset : Nat)
  | done
  | refused (fault : Fault)
  deriving DecidableEq, Repr

theorem isOk_openAfter_iff {index : Nat} {op : Op} {opened : List Nat} :
    (openAfter index op opened).isOk = true ↔ (op = .endBlock → opened ≠ []) := by
  cases op with
  | endBlock =>
    cases opened with
    | nil => exact iff_of_false Bool.false_ne_true fun h => h rfl rfl
    | cons start outer => exact iff_of_true rfl nofun
  | _ => exact iff_of_true rfl nofun

/-- A directive is carried out just when it is admissible by itself and, if it ends a block, a block is
open. -/
theorem isOk_add_iff {code : Code} {directive : Directive} :
    (code.add directive).isOk = true ↔
      directive.Admissible ∧ (directive = .endBlock → code.openBlocks ≠ []) := by
  rw [← @Directive.isOk_instruction_iff code.count, add]
  cases hi : directive.instruction code.count with
  | error fault => exact iff_of_false Bool.false_ne_true fun h => Bool.false_ne_true h.1
  | ok instruction =>
    rw [← (Directive.asks_of_instruction hi).op_eq_endBlock_iff, ← @isOk_openAfter_iff code.count]
    refine Iff.trans ?_ (and_iff_right rfl).symm
    change (openAfter code.count instruction.op code.openBlocks >>= _).isOk = true ↔ _
    cases openAfter code.count instruction.op code.openBlocks <;> exact Iff.rfl

def respond (code : Code) : Edit → Reply × Code
  | .add directive =>
    match code.add directive with
    | .ok (offset, next) => (.written offset, next)
    | .error fault => (.refused fault, code)
  | .addEntry name instruction => (.done, code.addEntry name instruction)
  | .align alignment =>
    match code.align alignment with
    | .ok next => (.done, next)
    | .error fault => (.refused fault, code)

def Reply.isGranted : Reply → Bool
  | .written _ | .done => true
  | .refused _ => false

def after (code : Code) (edits : List Edit) : Code :=
  edits.foldl (fun code edit => (code.respond edit).2) code

/-- The directives of a row of edits that were carried out, in order. -/
def carriedOut : Code → List Edit → List Directive
  | _, [] => []
  | code, edit :: rest =>
    let (reply, next) := code.respond edit
    match edit, reply with
    | .add directive, .written _ => directive :: next.carriedOut rest
    | _, _ => next.carriedOut rest

/-- The name and the instruction of an edit that names one. -/
def Edit.entry? : Edit → Option (String × Nat)
  | .addEntry name instruction => some (name, instruction)
  | .add _ | .align _ => none

theorem carriedOut_cons (code : Code) (edit : Edit) (rest : List Edit) :
    code.carriedOut (edit :: rest) =
      code.carriedOut [edit] ++ (code.respond edit).2.carriedOut rest := by
  simp only [carriedOut]
  split <;> rfl

theorem after_append (code : Code) (edits more : List Edit) :
    code.after (edits ++ more) = (code.after edits).after more := List.foldl_append ..

theorem respond_refused {code : Code} {edit : Edit} {fault : Fault}
    (h : (code.respond edit).1 = .refused fault) : (code.respond edit).2 = code := by
  cases edit with
  | add directive =>
    simp only [respond] at h ⊢
    split at h
    · cases h
    · rfl
  | addEntry name instruction => cases h
  | align alignment =>
    simp only [respond] at h ⊢
    split at h
    · cases h
    · rfl

theorem add_of_respond_written {code : Code} {directive : Directive} {offset : Nat}
    (h : (code.respond (.add directive)).1 = .written offset) :
    code.add directive = .ok (offset, (code.respond (.add directive)).2) := by
  simp only [respond] at h ⊢
  split at h
  · next found next ha =>
    cases h
    simp only [ha]
  · cases h

/-- What an edit must meet to be made on this code. -/
def Edit.Admissible (code : Code) : Edit → Prop
  | .add directive =>
    directive.Admissible ∧ (directive = .endBlock → code.openBlocks ≠ [])
  | .addEntry _ _ => True
  | .align alignment => isAlignment alignment = true

/-- The records of code that was built can always be read, so a layout is refused for its alignment
alone. -/
theorem Built.isOk_align_iff {code : Code} (hb : Built code) {alignment : Nat} :
    (code.align alignment).isOk = true ↔ isAlignment alignment = true := by
  constructor
  · intro h
    obtain ⟨next, hn⟩ := Outcome.isOk_iff.mp h
    exact isAlignment_of_align hn
  · intro ha
    obtain ⟨records, -, hr, -⟩ := hb.coherent.decodes
    obtain ⟨buffer, -, hal, -⟩ := align_of_records ha hr
    exact Outcome.isOk_iff.mpr ⟨_, hal⟩

theorem Built.isGranted_iff {code : Code} (hb : Built code) {edit : Edit} :
    (code.respond edit).1.isGranted = true ↔ edit.Admissible code := by
  cases edit with
  | add directive =>
    rw [Edit.Admissible, ← isOk_add_iff, respond]
    cases code.add directive <;> exact Iff.rfl
  | addEntry name instruction => exact iff_of_true rfl trivial
  | align alignment =>
    rw [Edit.Admissible, ← hb.isOk_align_iff, respond]
    cases code.align alignment <;> exact Iff.rfl

private theorem entries_of_add {code next : Code} {directive : Directive} {offset : Nat}
    (h : code.add directive = .ok (offset, next)) : next.entries = code.entries := by
  obtain ⟨instruction, -, h⟩ := Outcome.bind_eq_ok.mp h
  obtain ⟨openBlocks, -, h⟩ := Outcome.bind_eq_ok.mp h
  cases h
  rfl

theorem entries_of_align {code next : Code} {alignment : Nat}
    (h : code.align alignment = .ok next) : next.entries = code.entries := by
  unfold align at h
  split at h
  · cases h
  · split at h
    · cases h
      rfl
    · obtain ⟨records, -, h⟩ := Outcome.bind_eq_ok.mp h
      cases h
      rfl

theorem entries_respond (code : Code) (edit : Edit) :
    (code.respond edit).2.entries =
      edit.entry?.elim code.entries fun entry => Entry.put entry.1 entry.2 code.entries := by
  cases edit with
  | add directive =>
    simp only [respond]
    split
    · next offset next ha => exact entries_of_add ha
    · rfl
  | addEntry name instruction => rfl
  | align alignment =>
    simp only [respond]
    split
    · next next ha => exact entries_of_align ha
    · rfl

/-- The entries of code depend on the edits that name entries, and on no others. -/
theorem entries_after (code : Code) (edits : List Edit) :
    (code.after edits).entries = (edits.filterMap Edit.entry?).foldl
      (fun entries entry => Entry.put entry.1 entry.2 entries) code.entries := by
  induction edits generalizing code with
  | nil => rfl
  | cons edit rest ih =>
    change ((code.respond edit).2.after rest).entries = _
    rw [ih, entries_respond]
    cases he : edit.entry? with
    | none =>
      rw [List.filterMap_cons_none he]
      rfl
    | some entry =>
      rw [List.filterMap_cons_some he]
      rfl

end Code

end RegisterMachine
