import Mathlib.Data.List.Induction
import RegisterMachine.Program
import RegisterMachine.Proofs.Edits

/-!
# Tables of entries

Naming an instruction moves a name that is in the table and puts a new one at its end. So in code
that was built from nothing every name stands once, for the instruction that it was given last, and
the names stand in the order in which they were first given; layouts and images change nothing in
that. An image that was not saved from such code may hold a name twice. It is loaded like any other,
and no edit removes the second.
-/

namespace RegisterMachine

namespace Entry

private theorem names_put (name : String) (instruction : Nat) (entries : List Entry) :
    (put name instruction entries).map Entry.name =
      if name ∈ entries.map Entry.name then entries.map Entry.name
      else entries.map Entry.name ++ [name] := by
  induction entries with
  | nil => simp [put]
  | cons entry rest ih =>
    by_cases he : entry.name = name
    · simp [put, he]
    · simp only [put, he, ↓reduceIte, List.map_cons, ih, List.mem_cons, Ne.symm he, false_or]
      split <;> simp

private theorem find?_put (name : String) (instruction : Nat) (entries : List Entry)
    (other : String) :
    (put name instruction entries).find? (·.name = other) =
      if other = name then some { name, instruction } else entries.find? (·.name = other) := by
  induction entries with
  | nil =>
    by_cases ho : other = name
    · simp [put, ho]
    · simp [put, ho, Ne.symm ho]
  | cons entry rest ih =>
    by_cases he : entry.name = name
    · subst he
      by_cases ho : other = entry.name
      · simp [put, ho]
      · simp [put, ho, Ne.symm ho]
    · by_cases hf : entry.name = other
      · subst hf
        simp [put, he]
      · simp [put, he, hf, ih]

/-- Naming an instruction makes no name stand twice, and leaves no name standing once that stood
twice before. -/
theorem nodup_put_iff (name : String) (instruction : Nat) (entries : List Entry) :
    ((put name instruction entries).map Entry.name).Nodup ↔ (entries.map Entry.name).Nodup := by
  rw [names_put]
  split
  · exact Iff.rfl
  · next h => simpa [List.nodup_append] using fun _ => h

private theorem find?_of_nodup {entries : List Entry} (h : (entries.map Entry.name).Nodup)
    {entry : Entry} (he : entry ∈ entries) : entries.find? (·.name = entry.name) = some entry := by
  induction entries with
  | nil => cases he
  | cons first rest ih =>
    obtain ⟨hfirst, hrest⟩ := List.nodup_cons.mp h
    rcases List.mem_cons.mp he with rfl | he
    · simp
    · have hne : first.name ≠ entry.name := fun heq =>
        hfirst (heq ▸ List.mem_map_of_mem he)
      rw [List.find?_cons_of_neg (by simpa using hne)]
      exact ih hrest he

/-- A table to which names were given one after the other. -/
def putAll (named : List (String × Nat)) (entries : List Entry) : List Entry :=
  named.foldl (fun entries entry => put entry.1 entry.2 entries) entries

private theorem putAll_concat (named : List (String × Nat)) (last : String × Nat)
    (entries : List Entry) :
    putAll (named ++ [last]) entries = put last.1 last.2 (putAll named entries) :=
  List.foldl_concat ..

/-- The names stand in the order in which they were first given. -/
theorem names_putAll (named : List (String × Nat)) :
    (putAll named []).map Entry.name = (named.map Prod.fst).eraseDups := by
  induction named using List.reverseRecOn with
  | nil => rfl
  | append_singleton named last ih =>
    rw [putAll_concat, names_put, ih, List.map_append, List.eraseDups_append]
    by_cases hm : last.1 ∈ named.map Prod.fst
    · simp [hm, List.cons_removeAll]
    · simp [hm, List.cons_removeAll, List.eraseDups_cons]

/-- Every name stands for the instruction that it was given last. -/
theorem find?_putAll (named : List (String × Nat)) (name : String) :
    ((putAll named []).find? (·.name = name)).map Entry.instruction =
      named.reverse.lookup name := by
  induction named using List.reverseRecOn with
  | nil => rfl
  | append_singleton named last ih =>
    obtain ⟨given, instruction⟩ := last
    rw [putAll_concat, find?_put, List.reverse_concat']
    by_cases hn : name = given
    · subst hn
      rw [List.lookup_cons_self, if_pos rfl]
      rfl
    · rw [List.lookup_cons, beq_eq_false_iff_ne.mpr hn, if_neg hn]
      exact ih

end Entry

namespace Code

/-! ### Names that stand once -/

def NamedOnce (code : Code) : Prop := (code.entries.map Entry.name).Nodup

instance (code : Code) : Decidable code.NamedOnce := inferInstanceAs (Decidable (List.Nodup _))

theorem namedOnce_respond_iff (code : Code) (edit : Edit) :
    (code.respond edit).2.NamedOnce ↔ code.NamedOnce := by
  rw [NamedOnce, entries_respond]
  cases edit.entry? with
  | none => exact Iff.rfl
  | some entry => exact Entry.nodup_put_iff entry.1 entry.2 code.entries

theorem namedOnce_after_iff (code : Code) (edits : List Edit) :
    (code.after edits).NamedOnce ↔ code.NamedOnce := by
  induction edits generalizing code with
  | nil => exact Iff.rfl
  | cons edit rest ih => exact (ih _).trans (namedOnce_respond_iff code edit)

theorem namedOnce_align_iff {code next : Code} {alignment : Nat}
    (h : code.align alignment = .ok next) : next.NamedOnce ↔ code.NamedOnce := by
  rw [NamedOnce, entries_of_align h, NamedOnce]

private theorem NamedOnce.finds {code : Code} (h : code.NamedOnce) {entry : Entry}
    (he : entry ∈ code.entries) : code.findEntry? entry.name = some entry.instruction := by
  unfold Code.findEntry?
  rw [Entry.find?_of_nodup h he]
  rfl

/-- Code that edits made of nothing names every instruction once. Code that they made of a loaded
image does so just when the table that the image spells does, whether or not it was laid out anew.
The names of such code stand for the instructions that they are listed with. -/
theorem namedOnce_iff_of_load {bytes : List UInt8} {stored : Code} (h : load bytes = .ok stored) :
    (∃ reserved, Image.Spells reserved stored.alignment stored.buffer stored.entries bytes) ∧
    ∀ edits, (({} : Code).after edits).NamedOnce ∧
      ((stored.after edits).NamedOnce ↔ stored.NamedOnce) ∧
      (∀ alignment laid, loadAligned bytes alignment = .ok laid →
        ((laid.after edits).NamedOnce ↔ stored.NamedOnce)) ∧
      (stored.NamedOnce → ∀ entry ∈ (stored.after edits).entries,
        findEntry? (stored.after edits) entry.name = some entry.instruction) := by
  obtain ⟨-, hspells, -⟩ := Image.load_eq_ok_iff.mp h
  refine ⟨hspells, ?_⟩
  intro edits
  refine ⟨?_, namedOnce_after_iff stored edits, ?_, ?_⟩
  · rw [namedOnce_after_iff]
    exact List.nodup_nil
  · intro alignment laid hl
    obtain ⟨loaded, hloaded, ha⟩ := Outcome.bind_eq_ok.mp hl
    cases h.symm.trans hloaded
    exact (namedOnce_after_iff laid edits).trans (namedOnce_align_iff ha)
  · intro honce entry he
    exact ((namedOnce_after_iff stored edits).mpr honce).finds he

/-- An image in which one name stands for the first instruction and again for the end. It is loaded,
the name stands for the first, and giving it again moves that one only. -/
theorem namedOnce_iff_of_load_twice :
    let bytes : List UInt8 := [71, 86, 66, 67, 1, 0, 0, 0, 171, 79, 98, 251, 2, 0, 0, 0, 80, 0,
      2, 0, 0, 0, 1, 0, 97, 0, 0, 0, 0, 1, 0, 97, 1, 0, 0, 0]
    let stored : Code :=
      { buffer := [80, 0], count := 1,
        entries := [{ name := "a", instruction := 0 }, { name := "a", instruction := 1 }] }
    let edits : List Edit := [.add .exit, .addEntry "a" 2]
    load bytes = .ok stored ∧ ¬ stored.NamedOnce ∧ stored.findEntry? "a" = some 0 ∧
      ¬ (stored.after edits).NamedOnce ∧ findEntry? (stored.after edits) "a" = some 2 := by
  intro bytes stored edits
  have h : load bytes = .ok stored := by decide +kernel
  have htwice : ¬ stored.NamedOnce := by decide +kernel
  refine ⟨h, htwice, by decide +kernel, ?_, by decide +kernel⟩
  exact mt ((namedOnce_iff_of_load h).2 edits).2.1.mp htwice

/-! ### Names that are given again -/

/-- Save code and load what was saved, laid out anew if an alignment is given. -/
def reload (code : Code) (alignment? : Option Nat) : Except Fault Code := do
  let bytes ← code.save
  match alignment? with
  | none => load bytes
  | some alignment => loadAligned bytes alignment

/-- What can be done with code that is kept: edit it, or go on with what its image holds. -/
inductive Revision
  | edit (change : Edit)
  | reload (alignment? : Option Nat)

def revise (code : Code) : Revision → Code
  | .edit change => (code.respond change).2
  | .reload alignment? =>
    match code.reload alignment? with
    | .ok next => next
    | .error _ => code

def revised (code : Code) (revisions : List Revision) : Code := revisions.foldl revise code

/-- The name and the instruction of a revision that names one. -/
def Revision.entry? : Revision → Option (String × Nat)
  | .edit change => change.entry?
  | .reload _ => none

private theorem Built.respond {code : Code} (h : Built code) (edit : Edit) :
    Built (code.respond edit).2 := by
  cases edit with
  | add directive =>
    simp only [Code.respond]
    split
    · next offset next ha => exact .add h ha
    · exact h
  | addEntry name instruction => exact .addEntry h name instruction
  | align alignment =>
    simp only [Code.respond]
    split
    · next next ha => exact .align h ha
    · exact h

private theorem entries_of_reload {code next : Code} (hb : Built code) {alignment? : Option Nat}
    (h : code.reload alignment? = .ok next) : Built next ∧ next.entries = code.entries := by
  obtain ⟨bytes, hs, h⟩ := Outcome.bind_eq_ok.mp h
  -- Saving does not run the checks, but loading does, and code that passes them comes back.
  have hsame {loaded : Code} (hl : load bytes = .ok loaded) : loaded = code := by
    obtain ⟨linked, hf⟩ := hb.coherent.finalize_of_load_save hs hl
    exact Except.ok.inj (hl.symm.trans (hb.coherent.load_of_save hf hs))
  cases alignment? with
  | none => exact ⟨.load h, by rw [hsame h]⟩
  | some alignment =>
    obtain ⟨loaded, hl, ha⟩ := Outcome.bind_eq_ok.mp h
    exact ⟨.align (.load hl) ha, by rw [entries_of_align ha, hsame hl]⟩

private theorem entries_revise {code : Code} (hb : Built code) (revision : Revision) :
    Built (code.revise revision) ∧ (code.revise revision).entries =
      Entry.putAll revision.entry?.toList code.entries := by
  cases revision with
  | edit change =>
    refine ⟨hb.respond change, ?_⟩
    rw [revise, entries_respond, Revision.entry?]
    cases change.entry? <;> rfl
  | reload alignment? =>
    simp only [revise]
    split
    · next next h => exact entries_of_reload hb h
    · exact ⟨hb, rfl⟩

/-- The table depends on the names that were given, and on nothing else. -/
theorem entries_revised {code : Code} (hb : Built code) (revisions : List Revision) :
    (code.revised revisions).entries =
      Entry.putAll (revisions.filterMap Revision.entry?) code.entries := by
  induction revisions generalizing code with
  | nil => rfl
  | cons revision rest ih =>
    obtain ⟨hnext, hentries⟩ := entries_revise hb revision
    refine (ih hnext).trans ?_
    rw [hentries]
    cases hr : revision.entry? with
    | none =>
      rw [List.filterMap_cons_none hr, Option.toList_none]
      rfl
    | some entry =>
      rw [List.filterMap_cons_some hr, Option.toList_some]
      rfl

end Code

namespace Program

private theorem finds_of_ofCode {code : Code} {program : Program} (h : ofCode code = .ok program)
    (name : String) : program.code.findEntry? name = code.findEntry? name := by
  obtain ⟨linked, -, h⟩ := Outcome.bind_eq_ok.mp h
  cases h
  rfl

private theorem finds_of_ofCodeAligned {code : Code} {alignment : Nat} {program : Program}
    (h : ofCodeAligned code alignment = .ok program) (name : String) :
    program.code.findEntry? name = code.findEntry? name := by
  obtain ⟨laid, ha, h⟩ := Outcome.bind_eq_ok.mp h
  rw [finds_of_ofCode h]
  unfold Code.findEntry?
  rw [Code.entries_of_align ha]

end Program

namespace Code

/-- However code that began with nothing was edited, laid out, saved and loaded, a name stands for
the instruction that it was given last, or for none if it was never given, in the code and in any
program made of it. The names stand in the order in which they were first given, each once. -/
theorem last_name_given_counts (revisions : List Revision) :
    let code := ({} : Code).revised revisions
    let named := revisions.filterMap Revision.entry?
    code.entries.map Entry.name = (named.map Prod.fst).eraseDups ∧
    ∀ name, code.findEntry? name = named.reverse.lookup name ∧
      ∀ program, (Program.ofCode code = .ok program ∨
          ∃ alignment, Program.ofCodeAligned code alignment = .ok program) →
        program.entry name = match named.reverse.lookup name with
          | some instruction => .ok instruction
          | none => .error { cause := .entryNotFound } := by
  intro code named
  have hentries : code.entries = Entry.putAll named [] := entries_revised .empty revisions
  have hfind (name : String) : code.findEntry? name = named.reverse.lookup name := by
    unfold findEntry?
    rw [hentries, Entry.find?_putAll]
  refine ⟨by rw [hentries, Entry.names_putAll], fun name => ⟨hfind name, ?_⟩⟩
  intro program hp
  have hprogram : program.code.findEntry? name = named.reverse.lookup name := by
    rw [← hfind]
    rcases hp with hp | ⟨alignment, hp⟩
    · exact Program.finds_of_ofCode hp name
    · exact Program.finds_of_ofCodeAligned hp name
  rw [← hprogram]
  rfl

/-- A name that is moved behind a reload, a second name and a layout, and then reloaded. -/
theorem last_name_given_counts_moved :
    let revisions : List Revision :=
      [.edit (.addEntry "run" 0), .edit (.add .exit), .reload none, .edit (.addEntry "stop" 1),
        .edit (.align 8), .edit (.addEntry "run" 1), .reload (some 4)]
    let code := ({} : Code).revised revisions
    code.entries.map Entry.name = ["run", "stop"] ∧ code.findEntry? "run" = some 1 ∧
      ∃ program, Program.ofCode code = .ok program ∧ program.entry "run" = .ok 1 ∧
        program.entry "idle" = .error { cause := .entryNotFound } := by
  intro revisions code
  obtain ⟨hnames, hentry⟩ := last_name_given_counts revisions
  obtain ⟨program, hp⟩ := Outcome.isOk_iff.mp
    (show (Program.ofCode code).isOk = true by decide +kernel)
  refine ⟨hnames.trans (by decide +kernel), (hentry "run").1.trans (by decide +kernel), program, hp,
    (hentry "run").2 program (.inl hp), (hentry "idle").2 program (.inl hp)⟩

end Code

end RegisterMachine
