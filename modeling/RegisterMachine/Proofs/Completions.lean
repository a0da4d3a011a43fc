import Mathlib.Data.List.TakeWhile
import RegisterMachine.Monitor.Session
import RegisterMachine.Proofs.EntryTables
import RegisterMachine.Proofs.Legibility

/-!
# Completions

Completion looks for a verb in front of the last space, and a line is taken apart at all its blanks.
Where the verb is the one that runs entries the two agree: the line that a completion makes runs the
words of the name that was offered. So a name that is one word is run by it. A name with a blank in it,
or an empty one, is offered like any other and cannot be run from a line.
-/

namespace RegisterMachine

/-! ### Words -/

namespace Text

/-- A text that is one word: it is not empty and has no blank in it. -/
def IsWord (text : String) : Prop := text ≠ "" ∧ ∀ c ∈ text.toList, isBlank c = false

instance (text : String) : Decidable (IsWord text) :=
  decidable_of_iff (text ≠ "" ∧ text.toList.all (!isBlank ·) = true) (by simp [IsWord])

private theorem wordsOf_congr {chars others : List Char}
    (h : chars.dropWhile isBlank = others.dropWhile isBlank) : wordsOf chars = wordsOf others := by
  rw [wordsOf, wordsOf]
  split
  · next hc =>
    rw [h] at hc
    split
    · rfl
    · next ho => cases hc.symm.trans ho
  · next first rest hc =>
    rw [h] at hc
    split
    · next ho => cases hc.symm.trans ho
    · next ho =>
      cases hc.symm.trans ho
      rfl

/-- Blanks in front of the words do not count. -/
theorem wordsOf_blanks_append {blanks : List Char} (h : ∀ c ∈ blanks, isBlank c = true)
    (chars : List Char) : wordsOf (blanks ++ chars) = wordsOf chars :=
  wordsOf_congr (List.dropWhile_append_of_pos h)

/-- A word goes up to the next blank. -/
theorem wordsOf_word_append {first : Char} {word rest : List Char}
    (hw : ∀ c ∈ first :: word, isBlank c = false) (hr : Stops (!isBlank ·) rest) :
    wordsOf (first :: word ++ rest) = String.ofList (first :: word) :: wordsOf rest := by
  obtain ⟨hfirst, hword⟩ := List.forall_mem_cons.mp hw
  have hkind : ∀ c ∈ word, (!isBlank c) = true := by
    intro c hc
    rw [hword c hc]
    rfl
  have hdrop : (first :: word ++ rest).dropWhile isBlank = first :: (word ++ rest) := by
    simp [hfirst]
  have hbehind : (word ++ rest).dropWhile (!isBlank ·) = rest := by
    rw [List.dropWhile_append_of_pos hkind]
    cases rest with
    | nil => rfl
    | cons c rest => simp [List.dropWhile, (stops_cons (!isBlank ·) c rest).mp hr]
  rw [wordsOf]
  split
  · next hc => cases hc.symm.trans hdrop
  · next hc =>
    cases hc.symm.trans hdrop
    change String.ofList (first :: (word ++ rest).takeWhile (!isBlank ·)) ::
      wordsOf ((word ++ rest).dropWhile (!isBlank ·)) = _
    rw [takeWhile_append_of_stops hkind hr, hbehind]

private theorem words_of_isWord {text : String} (h : IsWord text) : words text = [text] := by
  obtain ⟨hne, hblank⟩ := h
  obtain ⟨first, rest, hchars⟩ := List.exists_cons_of_ne_nil (mt String.toList_eq_nil_iff.mp hne)
  rw [hchars] at hblank
  have hword := wordsOf_word_append hblank (stops_nil _)
  have hnil : wordsOf [] = [] := by rw [wordsOf]; rfl
  rw [List.append_nil, hnil, ← hchars, String.ofList_toList] at hword
  exact hword

/-- A text is what is left of it when it is trimmed, between blanks. -/
theorem exists_trim (chars : List Char) :
    ∃ lead trail, chars = lead ++ (trim chars ++ trail) ∧ (∀ c ∈ lead, isBlank c = true) ∧
      ∀ c ∈ trail, isBlank c = true := by
  let behind := chars.dropWhile isBlank
  refine ⟨chars.takeWhile isBlank, (behind.reverse.takeWhile isBlank).reverse, ?_, ?_, ?_⟩
  · have hbehind : trim chars ++ (behind.reverse.takeWhile isBlank).reverse = behind := by
      rw [trim, ← List.reverse_append, List.takeWhile_append_dropWhile, List.reverse_reverse]
    rw [hbehind, List.takeWhile_append_dropWhile]
  · intro c hc
    exact List.mem_takeWhile_imp hc
  · intro c hc
    exact List.mem_takeWhile_imp (List.mem_reverse.mp hc)

/-- No blank is a letter. -/
theorem toUpper_of_isBlank {c : Char} (h : isBlank c = true) : c.toUpper = c := by
  simp only [isBlank, blankRanges, List.any_cons, List.any_nil, Bool.or_eq_true, Bool.and_eq_true,
    decide_eq_true_eq, Bool.false_eq_true, or_false, Char.toNat] at h
  refine dif_neg ?_
  rintro ⟨hlow, hhigh⟩
  have hlower : 97 ≤ c.val.toNat := UInt32.le_iff_toNat_le.mp hlow
  have hupper : c.val.toNat ≤ 122 := UInt32.le_iff_toNat_le.mp hhigh
  omega

private theorem isWord_of_upper {text : String} (h : IsWord (upper text)) : IsWord text := by
  obtain ⟨hne, hblank⟩ := h
  refine ⟨?_, ?_⟩
  · rintro rfl
    exact hne (by decide +kernel)
  · intro c hc
    cases hb : isBlank c with
    | false => rfl
    | true =>
      have hupper : c ∈ (upper text).toList := by
        rw [upper, String.toList_map]
        exact List.mem_map.mpr ⟨c, hc, toUpper_of_isBlank hb⟩
      exact hb.symm.trans (hblank c hupper)

/-- A word between blanks, the last of them a space, is the first word of whatever follows. -/
theorem words_behind_word {front : List Char}
    (h : IsWord (String.ofList (trim (front ++ [' '])))) (rest : String) :
    words (String.ofList (front ++ [' ']) ++ rest) =
      String.ofList (trim (front ++ [' '])) :: words rest := by
  obtain ⟨hne, hblank⟩ := h
  obtain ⟨lead, trail, hsplit, hlead, htrail⟩ := exists_trim (front ++ [' '])
  rw [String.toList_ofList] at hblank
  cases hverb : trim (front ++ [' ']) with
  | nil => exact absurd (congrArg String.ofList hverb) hne
  | cons first word =>
    rw [hverb] at hblank hsplit
    -- The last character is a space, which the word does not end with.
    have hstops : Stops (!isBlank ·) (trail ++ rest.toList) := by
      cases trail with
      | nil =>
        have hlast := congrArg List.getLast? hsplit
        rw [List.append_nil, List.getLast?_concat, List.getLast?_append_cons] at hlast
        have hmem := List.mem_of_getLast? hlast.symm
        cases hblank ' ' hmem
      | cons c trail =>
        have hc := htrail c List.mem_cons_self
        simpa using hc
    rw [words, String.toList_append, String.toList_ofList, hsplit, List.append_assoc,
      wordsOf_blanks_append hlead, List.append_assoc, wordsOf_word_append hblank hstops,
      wordsOf_blanks_append htrail]
    rfl

end Text

/-! ### Completion and command -/

namespace Monitor

open Text

/-- What stands before a word: nothing, or a text that ends with a space. -/
def Precedes (before : List Char) : Prop := before = [] ∨ ∃ front, before = front ++ [' ']

private theorem splitWord_append {before word : List Char} (hb : Precedes before)
    (hw : ' ' ∉ word) :
    splitWord (before ++ word) = (before, word) := by
  have hkind : ∀ c ∈ word.reverse, decide (c ≠ ' ') = true := by
    intro c hc
    rw [decide_eq_true_iff]
    rintro rfl
    exact hw (List.mem_reverse.mp hc)
  have hstops : Stops (fun c => decide (c ≠ ' ')) before.reverse := by
    rcases hb with rfl | ⟨front, rfl⟩
    · exact stops_nil _
    · rw [List.reverse_concat']
      rfl
  have hword : ((before ++ word).reverse.takeWhile (· ≠ ' ')).reverse = word := by
    rw [List.reverse_append, takeWhile_append_of_stops hkind hstops, List.reverse_reverse]
  simp only [splitWord, hword, List.length_append, Nat.add_sub_cancel, List.take_left]

/-- Whatever rule it is that tells a word from what stands before it. -/
theorem offers?_eq_some_iff {entries : List Entry} {before word : List Char} {names : List String} :
    offers? entries before word = some names ↔
      upper (String.ofList (trim before)) = "RUN" ∧ names ≠ [] ∧
        names = (entries.map (·.name)).filter (word.isPrefixOf ·.toList) := by
  unfold offers?
  split
  · next hverb =>
    split
    · next hnone =>
      refine iff_of_false nofun ?_
      rintro ⟨-, hne, rfl⟩
      exact hne hnone
    · next hsome =>
      constructor
      · intro h
        cases h
        exact ⟨hverb, hsome, rfl⟩
      · rintro ⟨-, -, rfl⟩
        rfl
  · next hverb => exact iff_of_false nofun fun h => hverb h.1

private theorem completions?_append (entries : List Entry) {before word : String}
    (hb : Precedes before.toList) (hw : ' ' ∉ word.toList) :
    completions? entries (before ++ word) = offers? entries before.toList word.toList := by
  rw [completions?, String.toList_append, splitWord_append hb hw]

/-- Behind the verb, the words that are typed are what is run. -/
theorem ofLine_behind_run {before : List Char} (hb : Precedes before)
    (h : upper (String.ofList (trim before)) = "RUN") (rest : String) :
    Command.ofLine (String.ofList before ++ rest) = .run (words rest) := by
  have hword : IsWord (String.ofList (trim before)) := by
    apply isWord_of_upper
    rw [h]
    decide
  rcases hb with rfl | ⟨front, rfl⟩
  · exact absurd rfl hword.1
  · rw [Command.ofLine, words_behind_word hword]
    dsimp only
    rw [h]
    rfl

private theorem perform_run {machine : Machine} {name : String} {index : Nat}
    (h : machine.program.code.findEntry? name = some index) (args : List String) :
    (Command.run (name :: args)).perform machine = (.run, machine.startAt index) := by
  have hstart : machine.start name = .ok (machine.startAt index) := by
    rw [Machine.start, Program.entry, h]
    rfl
  rw [Command.perform, Command.runReply, hstart]

private theorem code_of_ofCode {code : Code} {program : Program}
    (h : Program.ofCode code = .ok program) :
    program.code = code := by
  obtain ⟨linked, -, h⟩ := Outcome.bind_eq_ok.mp h
  rw [← Outcome.pure_eq_ok.mp h]

private theorem exists_findEntry? {code : Code} {entry : Entry} (h : entry ∈ code.entries) :
    ∃ index, code.findEntry? entry.name = some index := by
  have hfound : (code.entries.find? (·.name = entry.name)).isSome = true :=
    List.find?_isSome.mpr ⟨entry, h, decide_eq_true rfl⟩
  obtain ⟨first, hf⟩ := Option.isSome_iff_exists.mp hfound
  exact ⟨first.instruction, by rw [Code.findEntry?, hf]; rfl⟩

/-- Behind a last space, or with none before it, a word is typed. Completion offers names just when
what stands before the word is the verb that runs entries, in either case and between blanks, and
there are entries whose names begin with the word; it offers all of these, in the order of the table.
A name that is offered and is one word can be run: the line in which it stands behind the same text
begins an invocation at its instruction. -/
theorem offered_words_can_be_run {code : Code} {program : Program}
    (hcode : Program.ofCode code = .ok program) {monitor : Monitor}
    (hmonitor : monitor.machine.program = program) {before word : String}
    (hbefore : Precedes before.toList) (hword : ' ' ∉ word.toList) (slices : Nat)
    (names : List String) :
    (monitor.respond slices (.complete (before ++ word)) =
        some (.offered (some names), some monitor) ↔
      upper (String.ofList (trim before.toList)) = "RUN" ∧ names ≠ [] ∧
        names = (code.entries.map (·.name)).filter (word.toList.isPrefixOf ·.toList)) ∧
    (monitor.respond slices (.complete (before ++ word)) =
        some (.offered (some names), some monitor) →
      ∀ name ∈ names, IsWord name → ∃ index next,
        code.findEntry? name = some index ∧
        (Command.ofLine (before ++ name)).perform monitor.machine = (.run, next) ∧
        next.phase = .running ∧ next.pc = index) := by
  have hprogram : monitor.machine.program.code = code := by
    rw [hmonitor, code_of_ofCode hcode]
  have hoffer : monitor.respond slices (.complete (before ++ word)) =
      some (.offered (some names), some monitor) ↔
        completions? code.entries (before ++ word) = some names := by
    simp [respond, hprogram]
  rw [hoffer, completions?_append code.entries hbefore hword, offers?_eq_some_iff]
  refine ⟨Iff.rfl, ?_⟩
  rintro ⟨hverb, -, rfl⟩ name hname hone
  obtain ⟨entry, hentry, rfl⟩ := List.mem_map.mp (List.mem_filter.mp hname).1
  obtain ⟨index, hindex⟩ := exists_findEntry? hentry
  have hline := ofLine_behind_run hbefore hverb entry.name
  rw [String.ofList_toList, words_of_isWord hone] at hline
  refine ⟨index, monitor.machine.startAt index, hindex, ?_, rfl, rfl⟩
  rw [hline]
  exact perform_run (hprogram ▸ hindex) []

/-- Two names that begin alike, one of them with a blank in it, completed behind a verb that is typed
with blanks around it and in lower case. -/
theorem offered_words_can_be_run_blanks :
    let code : Code :=
      { buffer := [80, 0], count := 1,
        entries := [{ name := "ma in", instruction := 0 }, { name := "main", instruction := 1 }] }
    ∃ program monitor, Program.ofCode code = .ok program ∧
      create code {} = .ok monitor ∧ monitor.machine.program = program ∧
      monitor.respond 1 (.complete ("\trun  " ++ "ma")) =
        some (.offered (some ["ma in", "main"]), some monitor) ∧
      ∃ next, (Command.ofLine ("\trun  " ++ "main")).perform monitor.machine = (.run, next) ∧
        next.phase = .running ∧ next.pc = 1 := by
  intro code
  obtain ⟨program, hp⟩ :=
    Outcome.isOk_iff.mp (show (Program.ofCode code).isOk = true by decide +kernel)
  let monitor : Monitor :=
    { machine := .create program Builtin.table (memory 16), cycles := 5000 }
  have hcreate : create code {} = .ok monitor := by
    rw [create, hp]
    rfl
  have hbefore : Precedes "\trun  ".toList := .inr ⟨"\trun ".toList, by decide⟩
  have hrun := offered_words_can_be_run hp (show monitor.machine.program = program from rfl) hbefore
    (show ' ' ∉ "ma".toList by decide) 1 ["ma in", "main"]
  have hoffered := hrun.1.mpr ⟨by decide +kernel, by decide, by decide +kernel⟩
  obtain ⟨index, next, hindex, hperform, hphase, hpc⟩ :=
    hrun.2 hoffered "main" (by decide) (by decide +kernel)
  have hone : code.findEntry? "main" = some 1 := by decide +kernel
  cases hone.symm.trans hindex
  exact ⟨program, monitor, hp, hcreate, rfl, hoffered, next, hperform, hphase, hpc⟩

/-- A name of two words is offered, and so is the empty name. The lines in which they stand behind the
same text find no entry, or are asked which entry is meant, and nothing is begun. -/
theorem offered_names_cannot_be_run :
    let code : Code :=
      { buffer := [80, 0], count := 1,
        entries := [{ name := "a b", instruction := 0 }, { name := "", instruction := 0 }] }
    ∃ program monitor, Program.ofCode code = .ok program ∧
      create code {} = .ok monitor ∧ monitor.machine.program = program ∧
      monitor.machine.phase = .idle ∧
      monitor.respond 1 (.complete ("RUN " ++ "a")) =
        some (.offered (some ["a b"]), some monitor) ∧
      code.findEntry? "a b" = some 0 ∧
      (Command.ofLine ("RUN " ++ "a b")).perform monitor.machine =
        (.complaint "ENTRY NOT FOUND", monitor.machine) ∧
      monitor.respond 1 (.complete ("RUN " ++ "")) =
        some (.offered (some ["a b", ""]), some monitor) ∧
      code.findEntry? "" = some 0 ∧
      (Command.ofLine ("RUN " ++ "")).perform monitor.machine =
        (.complaint "RUN WHICH ENTRY?", monitor.machine) := by
  intro code
  obtain ⟨program, hp⟩ :=
    Outcome.isOk_iff.mp (show (Program.ofCode code).isOk = true by decide +kernel)
  have hprogram := code_of_ofCode hp
  let monitor : Monitor :=
    { machine := .create program Builtin.table (memory 16), cycles := 5000 }
  have hcreate : create code {} = .ok monitor := by
    rw [create, hp]
    rfl
  have hoffers {typed : String} {names : List String}
      (h : completions? code.entries typed = some names) :
      monitor.respond 1 (.complete typed) = some (.offered (some names), some monitor) := by
    rw [respond, show monitor.machine.program.code = code from hprogram, h]
  have hstart : monitor.machine.start "a" = .error { cause := .entryNotFound } := by
    rw [Machine.start, Program.entry, show monitor.machine.program.code = code from hprogram]
    rfl
  have htwo : Command.ofLine ("RUN " ++ "a b") = .run ["a", "b"] := by decide +kernel
  have hnone : Command.ofLine ("RUN " ++ "") = .run [] := by decide +kernel
  refine ⟨program, monitor, hp, hcreate, rfl, rfl, hoffers (by decide +kernel), by decide +kernel, ?_,
    hoffers (by decide +kernel), by decide +kernel, ?_⟩
  · rw [htwo, Command.perform, Command.runReply, hstart]
    rfl
  · rw [hnone, Command.perform, Command.runReply]

end Monitor

end RegisterMachine
