import RegisterMachine.Monitor.Session
import RegisterMachine.Proofs.Slices

/-!
# Transcripts of the monitor

The monitor drives a run in slices of so many instructions. Their number is the monitor's pace, and
nothing that it writes, remembers or leaves behind depends on it: a run is told of in the same way
however it is cut, and between runs the machine is in the same state.
-/

namespace RegisterMachine

namespace Machine

variable {machine : Machine} {report : Event × Machine}

/-- A run that has come to an end needs no further slices. -/
theorem drive_of_le {budget slices more : Nat} (h : machine.drive budget slices = some report)
    (hle : slices ≤ more) : machine.drive budget more = some report := by
  have hsplit : List.replicate more budget =
      List.replicate slices budget ++ List.replicate (more - slices) budget := by
    rw [List.replicate_append_replicate, Nat.add_sub_cancel' hle]
  rw [drive_eq_head?] at h ⊢
  rw [hsplit, reports_append, List.head?_append, h]
  rfl

private theorem exists_drive_of_drive {first second slices : Nat} (hf : 0 < first) (hs : 0 < second)
    (h : machine.drive first slices = some report) :
    ∃ enough, machine.drive second enough = some report := by
  have hfirst : machine.FirstReport (fun _ => first) report :=
    ⟨slices, by rw [budgetRow_const, ← drive_eq_head?, h]⟩
  obtain ⟨enough, hh⟩ := hfirst.of_budgets (fun _ => hf) (fun _ => hs)
  exact ⟨enough, by rw [drive_eq_head?, ← budgetRow_const, hh]⟩

end Machine

namespace Monitor

/-- What is attempted in a number of slices comes to a result once there are enough of them. -/
def ComesTo {α : Type} (attempt : Nat → Option α) (result : α) : Prop :=
  ∃ enough, ∀ slices, enough ≤ slices → attempt slices = some result

theorem ComesTo.const {α : Type} (result : α) : ComesTo (fun _ => some result) result :=
  ⟨0, fun _ _ => rfl⟩

theorem ComesTo.map {α β : Type} {attempt : Nat → Option α} {result : α}
    (h : ComesTo attempt result) (f : α → β) :
    ComesTo (fun slices => (attempt slices).map f) (f result) := by
  obtain ⟨enough, h⟩ := h
  refine ⟨enough, ?_⟩
  intro slices hle
  simp only [h slices hle, Option.map_some]

private theorem comesTo_drive {machine : Machine} {first second slices : Nat}
    {report : Machine.Event × Machine} (hf : 0 < first) (hs : 0 < second)
    (h : machine.drive first slices = some report) :
    ComesTo (fun slices => machine.drive second slices) report := by
  obtain ⟨enough, he⟩ := Machine.exists_drive_of_drive hf hs h
  exact ⟨enough, fun slices hle => Machine.drive_of_le he hle⟩

/-- The same monitor with slices of another length. -/
def atPace (monitor : Monitor) (cycles : Nat) : Monitor := { monitor with cycles }

variable {monitor next : Monitor} {cycles slices : Nat}

private theorem comesTo_settle (hm : 0 < monitor.cycles) (hc : 0 < cycles)
    {interrupt running : Bool} {text : String}
    (h : monitor.settle slices interrupt running = some (text, next)) :
    0 < next.cycles ∧
      ComesTo (fun slices => (monitor.atPace cycles).settle slices interrupt running)
        (text, next.atPace cycles) := by
  unfold settle at h ⊢
  cases running with
  | false =>
    cases h
    exact ⟨hm, .const _⟩
  | true =>
    obtain ⟨⟨event, final⟩, hd, heq⟩ := Option.map_eq_some_iff.mp h
    cases heq
    exact ⟨hm, (comesTo_drive hm hc hd).map _⟩

/-- What is written at once after a command, and whether the machine is then run; nothing if the
monitor is over. -/
def Reply.opening? : Reply → Option (String × Bool)
  | .quit => none
  | .run => some ("", true)
  | .text answer => some (answer, false)
  | .complaint reason => some (bold reason ++ "\n", false)

/-- A line is carried out before anything is run. What is left to do then is to settle it. -/
theorem enter_eq {line : String} {reply : Reply} {machine : Machine}
    (hp : (Command.ofLine line).perform monitor.machine = (reply, machine)) (slices : Nat)
    (interrupt : Bool) :
    monitor.enter slices line interrupt =
      match reply.opening? with
      | none => some (.written "" none, none)
      | some (text, running) =>
        ({ monitor with machine }.settle slices interrupt running).map fun (more, monitor) =>
          (.written (text ++ more) (history? line), some monitor) := by
  rw [enter, hp]
  cases reply <;> rfl

private theorem comesTo_enter (hm : 0 < monitor.cycles) (hc : 0 < cycles) {line : String}
    {interrupt : Bool} {response : Response} {after : Option Monitor}
    (h : monitor.enter slices line interrupt = some (response, after)) :
    (∀ next ∈ after, 0 < next.cycles) ∧
      ComesTo (fun slices => (monitor.atPace cycles).enter slices line interrupt)
        (response, after.map (·.atPace cycles)) := by
  rcases hp : (Command.ofLine line).perform monitor.machine with ⟨reply, machine⟩
  have hother : (Command.ofLine line).perform (monitor.atPace cycles).machine = (reply, machine) := hp
  simp only [enter_eq hother]
  rw [enter_eq hp] at h
  cases ho : reply.opening? with
  | none =>
    simp only [ho] at h ⊢
    cases h
    exact ⟨nofun, .const _⟩
  | some opening =>
    obtain ⟨text, running⟩ := opening
    simp only [ho] at h ⊢
    obtain ⟨⟨more, next⟩, hs, heq⟩ := Option.map_eq_some_iff.mp h
    cases heq
    have hcarried : 0 < { monitor with machine }.cycles := hm
    obtain ⟨hnext, hcomes⟩ := comesTo_settle hcarried hc hs
    refine ⟨?_, hcomes.map _⟩
    rintro _ ⟨⟩
    exact hnext

private theorem comesTo_respond (hm : 0 < monitor.cycles) (hc : 0 < cycles) {input : Input}
    {response : Response} {after : Option Monitor}
    (h : monitor.respond slices input = some (response, after)) :
    (∀ next ∈ after, 0 < next.cycles) ∧
      ComesTo (fun slices => (monitor.atPace cycles).respond slices input)
        (response, after.map (·.atPace cycles)) := by
  cases input with
  | line text interrupt => exact comesTo_enter hm hc h
  | signal =>
    cases h
    exact ⟨nofun, .const _⟩
  | complete typed =>
    cases h
    refine ⟨?_, .const _⟩
    rintro _ ⟨⟩
    exact hm

/-- A script that one pace comes to the end of, every pace comes to the end of, with the same responses
one by one and the same machine. -/
theorem comesTo_play (hm : 0 < monitor.cycles) (hc : 0 < cycles) {script : List Input}
    {responses : List Response} {final : Machine}
    (h : monitor.play slices script = some (responses, final)) :
    ComesTo (fun slices => (monitor.atPace cycles).play slices script) (responses, final) := by
  induction script generalizing monitor responses with
  | nil =>
    cases h
    exact .const _
  | cons input rest ih =>
    rw [play] at h
    cases hr : monitor.respond slices input with
    | none => simp [hr] at h
    | some result =>
      obtain ⟨response, after⟩ := result
      obtain ⟨hafter, enough, hresponse⟩ := comesTo_respond hm hc hr
      rw [hr] at h
      cases after with
      | none =>
        cases h
        refine ⟨enough, ?_⟩
        intro slices hle
        simp only [play, hresponse slices hle]
        rfl
      | some next =>
        obtain ⟨⟨others, reached⟩, hp, heq⟩ := Option.map_eq_some_iff.mp h
        cases heq
        obtain ⟨more, hrest⟩ := ih (hafter next rfl) hp
        -- Enough slices for the first input and for the others are enough for the script.
        refine ⟨max enough more, ?_⟩
        intro slices hle
        have hfirst := hresponse slices (Nat.le_trans (Nat.le_max_left enough more) hle)
        have hothers := hrest slices (Nat.le_trans (Nat.le_max_right enough more) hle)
        simp only [play, hfirst, Option.map_some, hothers]

private theorem create_of_ofCode {code : Code} {program : Program}
    (h : Program.ofCode code = .ok program) {options : Options} (hc : 0 < options.cycles) :
    create code options = .ok
      { machine := .create program Builtin.table (memory options.registers) options.maxDepth
        cycles := options.cycles } := by
  simp only [create, h, bind, Except.bind, Nat.max_eq_left hc]
  rfl

/-- Two monitors over the same code that differ in the length of their slices: whenever one comes to
the end of a script, be it of lines, of the interrupt key, of completions or of signals, so does the
other. It writes the same texts, adds the same lines to the history and offers the same completions,
one by one, and leaves the same machine, with the same registers and the same trace. -/
theorem play_same_at_every_pace {code : Code} {program : Program}
    (hcode : Program.ofCode code = .ok program) (registers maxDepth : Nat) {first second : Nat}
    (hfirst : 1 ≤ first) (hsecond : 1 ≤ second) :
    ∃ one other, create code { registers, cycles := first, maxDepth } = .ok one ∧
      create code { registers, cycles := second, maxDepth } = .ok other ∧
      one.cycles = first ∧ other.cycles = second ∧
      ∀ script slices responses final, one.play slices script = some (responses, final) →
        ∃ enough, ∀ more, enough ≤ more → other.play more script = some (responses, final) := by
  let machine := Machine.create program Builtin.table (memory registers) maxDepth
  refine ⟨{ machine, cycles := first }, { machine, cycles := second },
    create_of_ofCode hcode hfirst, create_of_ofCode hcode hsecond, rfl, rfl, ?_⟩
  intro script slices responses final h
  have hpace : 0 < ({ machine, cycles := first } : Monitor).cycles := hfirst
  exact comesTo_play hpace hsecond h

/-- A run that traces a register and fails at a call, a register that is set before the run goes on,
and an interrupt that stops the next run: single instructions and slices of five do the same. -/
theorem play_same_at_every_pace_continued :
    let code : Code :=
      { buffer := [1, 0, 6, 0, 0, 0, 0, 0, 0, 0, 0, 0, 0, 0, 0, 0, 0, 0, 0, 0,
          69, 0, 0, 0, 0, 0, 0, 0, 0, 0, 80, 0],
        count := 4, entries := [{ name := "main", instruction := 0 }] }
    let script : List Input :=
      [.line "RUN main" false, .line "SET R0 41" false, .line "CONT" false, .line "run main" true]
    let responses : List Response :=
      [.written (bold "HOST FAILURE IN 1; MISSING OPERAND" ++ "\n") (some "RUN main"),
        .written "" (some "SET R0 41"), .written "EXITED IN 3\n" (some "CONT"),
        .written "INTERRUPTED IN 0\n" (some "run main")]
    ∃ one other final,
      create code { registers := 1, cycles := 1, maxDepth := 1 } = .ok one ∧
      create code { registers := 1, cycles := 5, maxDepth := 1 } = .ok other ∧
      one.play 9 script = some (responses, final) ∧ final.trace.size = 1 ∧
      final.memory.readInt (.work 0) = .ok 42 ∧
      ∃ enough, ∀ more, enough ≤ more → other.play more script = some (responses, final) := by
  intro code script responses
  obtain ⟨program, hp⟩ :=
    Outcome.isOk_iff.mp (show (Program.ofCode code).isOk = true by decide +kernel)
  obtain ⟨one, other, hone, hother, -, -, hsame⟩ :=
    play_same_at_every_pace hp 1 1 (show 1 ≤ 1 by decide) (show 1 ≤ 5 by decide)
  have hfacts : (create code { registers := 1, cycles := 1, maxDepth := 1 }).map (fun one =>
      (one.play 9 script).map fun played =>
        (played.1, decide (played.2.trace.size = 1 ∧ played.2.memory.readInt (.work 0) = .ok 42))) =
      .ok (some (responses, true)) := by decide +kernel
  rw [hone] at hfacts
  obtain ⟨⟨found, final⟩, hplay, heq⟩ := Option.map_eq_some_iff.mp (Except.ok.inj hfacts)
  obtain ⟨rfl, hleft⟩ := Prod.mk.inj heq
  obtain ⟨htrace, hread⟩ := of_decide_eq_true hleft
  exact ⟨one, other, final, hone, hother, hplay, htrace, hread, hsame script 9 responses final hplay⟩

end Monitor

end RegisterMachine
