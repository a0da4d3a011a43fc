import RegisterMachine.Proofs.Slices

/-!
# The life of an invocation

A host starts invocations, hands out slices, asks for interrupts and runs entries to the end, in any
order. `History` records what it did and to which machine. An interrupt waits exactly when the record
says so: it was asked for while an invocation went on, and since then no slice was handed out and no
invocation begun. So an interrupt is honoured once or dropped, and never meets an invocation that was
begun behind it.
-/

namespace RegisterMachine.Machine

inductive Deed
  | operate (operation : Operation)
  /-- Run an entry to its end or its first fault. -/
  | run (entry : String)

/-- The machine that a deed leads to. A run that comes to no end leads nowhere. -/
def LeadsTo (machine : Machine) : Deed → Machine → Prop
  | .operate operation, next => (machine.respond operation).2 = next
  | .run entry, next => ∃ slices result, machine.run slices entry = some (result, next)

/-- Whether a deed begins an invocation, which takes an entry that is known. -/
def Begins (machine : Machine) : Deed → Prop
  | .operate operation => (machine.starts? operation).isSome
  | .run entry => (machine.starts? (.start entry)).isSome

/-- Whether a deed hands out a slice or begins an invocation. -/
def Clears (machine : Machine) (deed : Deed) : Prop :=
  (∃ budget, deed = .operate (.execute budget)) ∨ machine.Begins deed

/-- What a host did from a machine on, each time with the machine that it did it to. -/
inductive History (origin : Machine) : List (Machine × Deed) → Machine → Prop
  | nil : History origin [] origin
  | snoc {past : List (Machine × Deed)} {machine next : Machine} {deed : Deed}
      (h : History origin past machine) (hd : LeadsTo machine deed next) :
      History origin (past ++ [(machine, deed)]) next

/-- An interrupt was asked for while an invocation went on, and since then no slice was handed out and
no invocation begun. -/
def InterruptDue (past : List (Machine × Deed)) : Prop :=
  ∃ earlier asked later, past = earlier ++ (asked, .operate .interrupt) :: later ∧
    asked.phase = .running ∧
    ∀ step ∈ later, ¬ step.1.Clears step.2

variable {machine next : Machine} {deed : Deed}

/-! ### What a slice leaves behind -/

/-- How far a machine has come when the first thing that its host is told of an invocation is this
event. -/
def Closes (final : Machine) (event : Event) : Prop :=
  (event = .exited ∧ final.phase = .exited) ∨
    ∃ fault, (event = .hostError fault ∧ final.phase = .running) ∨
      (event = .faulted fault ∧ final.phase = .faulted)

private theorem Ready.hostError (h : machine.Ready) {fault : Fault}
    (hs : machine.step = .ok (.hostError fault next)) : next.Ready := by
  obtain ⟨instruction, -, hm⟩ := move_of_step_hostError hs
  exact ⟨hm.interrupted_eq.trans h.interrupted, hm.phase_eq.trans h.phase⟩

/-- Nothing that a slice does brings an interrupt about, and it ends as its event says. -/
theorem Ready.of_cycle (h : machine.Ready) {budget : Nat} {event : Event} {final : Machine}
    (hc : machine.cycle budget = (event, final)) :
    final.interrupted = false ∧ (event ≠ .running → final.Closes event) := by
  induction budget generalizing machine with
  | zero =>
    cases hc
    exact ⟨h.interrupted, fun he => absurd rfl he⟩
  | succ budget ih =>
    rw [cycle] at hc
    split at hc
    · next mid hs => exact ih (h.next hs) hc
    · cases hc
      exact ⟨h.interrupted, fun _ => .inl ⟨rfl, rfl⟩⟩
    · next fault mid hs =>
      cases hc
      have hmid := h.hostError hs
      exact ⟨hmid.interrupted, fun _ => .inr ⟨fault, .inl ⟨rfl, hmid.phase⟩⟩⟩
    · next fault hs =>
      cases hc
      exact ⟨h.interrupted, fun _ => .inr ⟨_, .inr ⟨rfl, rfl⟩⟩⟩

private theorem Ready.of_drive (h : machine.Ready) {budget slices : Nat} {event : Event}
    {final : Machine} (hd : machine.drive budget slices = some (event, final)) :
    final.interrupted = false ∧ final.Closes event := by
  induction slices generalizing machine with
  | zero => cases hd
  | succ slices ih =>
    rcases he : machine.execute budget with ⟨found, mid⟩
    have hc := (h.execute_eq budget).symm.trans he
    rw [drive, he] at hd
    by_cases hr : found = .running
    · subst hr
      exact ih (h.of_cycle_running hc) hd
    · have hended : (found, mid) = (event, final) := by
        cases found with
        | running => exact absurd rfl hr
        | _ => exact Option.some.inj hd
      cases hended
      obtain ⟨hi, hcloses⟩ := h.of_cycle hc
      exact ⟨hi, hcloses hr⟩

private theorem Closes.event_ne {final : Machine} {event : Event} (h : final.Closes event) :
    event ≠ .stopped ∧ ∀ pc, event ≠ .interrupted pc := by
  rcases h with ⟨rfl, -⟩ | ⟨fault, ⟨rfl, -⟩ | ⟨rfl, -⟩⟩ <;> exact ⟨nofun, nofun⟩

private theorem interrupted_execute (machine : Machine) (budget : Nat) :
    (machine.execute budget).2.interrupted = false := by
  unfold execute
  split
  · rfl
  · next hi =>
    have hi := eq_false_of_ne_true hi
    split
    · next hp => exact (Ready.of_cycle ⟨hi, hp⟩ rfl).1
    · exact hi

/-- An interrupt waits only while an invocation goes on. -/
def Orderly (machine : Machine) : Prop := machine.interrupted = true → machine.phase = .running

private theorem execute_of_interrupted (h : machine.interrupted = true) (budget : Nat) :
    machine.execute budget = (.interrupted machine.pc,
      { machine with interrupted := false, frames := machine.frames.clear, phase := .idle }) := by
  rw [execute, if_pos h]

private theorem Orderly.execute_of_not_running (h : machine.Orderly) (hp : machine.phase ≠ .running)
    (budget : Nat) : machine.execute budget = (.stopped, machine) := by
  have hi : ¬ machine.interrupted = true := fun hi => hp (h hi)
  rw [execute, if_neg hi, if_neg hp]

theorem execute_interrupted_iff {budget pc : Nat} :
    (machine.execute budget).1 = .interrupted pc ↔ pc = machine.pc ∧ machine.interrupted = true := by
  by_cases hi : machine.interrupted = true
  · rw [execute_of_interrupted hi]
    simp [hi, eq_comm]
  · simp only [hi, Bool.false_eq_true, and_false, iff_false]
    rw [execute, if_neg hi]
    split
    · next hp =>
      rcases hc : machine.cycle budget with ⟨event, final⟩
      intro he
      have hcloses := (Ready.of_cycle ⟨eq_false_of_ne_true hi, hp⟩ hc).2
      cases he
      exact (hcloses (by simp)).event_ne.2 pc rfl
    · simp

theorem Orderly.execute_stopped_iff (h : machine.Orderly) {budget : Nat} :
    (machine.execute budget).1 = .stopped ↔ machine.phase ≠ .running := by
  constructor
  · intro he hp
    by_cases hi : machine.interrupted = true
    · rw [execute_of_interrupted hi] at he
      cases he
    · have hready : machine.Ready := ⟨eq_false_of_ne_true hi, hp⟩
      rw [hready.execute_eq] at he
      rcases hc : machine.cycle budget with ⟨event, final⟩
      rw [hc] at he
      cases he
      exact ((hready.of_cycle hc).2 nofun).event_ne.1 rfl
  · intro hp
    rw [h.execute_of_not_running hp]

/-! ### What a deed does to a waiting interrupt -/

private theorem start_eq_ok_of_begins {entry : String} (h : machine.Begins (.run entry)) :
    ∃ index, machine.start entry = .ok (machine.startAt index) := by
  simp only [Begins, starts?] at h
  cases he : machine.program.entry entry with
  | error fault => simp [he, Except.toOption] at h
  | ok index => exact ⟨index, by simp only [start, he]; rfl⟩

private theorem start_eq_error_of_not_begins {entry : String} (h : ¬ machine.Begins (.run entry)) :
    ∃ fault, machine.start entry = .error fault := by
  simp only [Begins, starts?] at h
  cases he : machine.program.entry entry with
  | error fault => exact ⟨fault, by simp only [start, he]; rfl⟩
  | ok index => simp [he, Except.toOption] at h

/-- A run that found its entry drives an invocation that no interrupt waits for. -/
theorem run_of_begins {slices : Nat} {entry : String} {result : Except Fault Unit} {final : Machine}
    (hb : machine.Begins (.run entry)) (h : machine.run slices entry = some (result, final)) :
    ∃ started event, machine.start entry = .ok started ∧
      started.drive maxBudget slices = some (event, final) ∧ event.result = result ∧
      final.interrupted = false ∧ final.Closes event := by
  obtain ⟨index, hs⟩ := start_eq_ok_of_begins hb
  rw [run, hs] at h
  obtain ⟨⟨event, reached⟩, hd, heq⟩ := Option.map_eq_some_iff.mp h
  cases heq
  exact ⟨_, event, hs, hd, rfl, (Ready.startAt machine index).of_drive hd⟩

private theorem not_clears (hd : ∀ budget, deed ≠ .operate (.execute budget))
    (hb : ¬ machine.Begins deed) :
    ¬ machine.Clears deed :=
  not_or.mpr ⟨fun ⟨budget, h⟩ => hd budget h, hb⟩

private theorem not_clears_interrupt (machine : Machine) : ¬ machine.Clears (.operate .interrupt) :=
  not_clears nofun nofun

/-- A deed hands out a slice or begins an invocation, and then no interrupt waits any more; or it asks
for an interrupt; or it does nothing. -/
theorem LeadsTo.cases (h : LeadsTo machine deed next) :
    (machine.Clears deed ∧ next.interrupted = false) ∨
      (deed = .operate .interrupt ∧ next = machine.interrupt) ∨
      (¬ machine.Clears deed ∧ deed ≠ .operate .interrupt ∧ next = machine) := by
  cases deed with
  | operate operation =>
    obtain rfl : (machine.respond operation).2 = next := h
    cases operation with
    | start entry =>
      by_cases hb : machine.Begins (.run entry)
      · obtain ⟨index, hs⟩ := start_eq_ok_of_begins hb
        refine .inl ⟨.inr hb, ?_⟩
        simp only [respond, hs]
        rfl
      · obtain ⟨fault, hs⟩ := start_eq_error_of_not_begins hb
        refine .inr (.inr ⟨not_clears (by simp) hb, by simp, ?_⟩)
        simp only [respond, hs]
    | startAt index => exact .inl ⟨.inr rfl, rfl⟩
    | interrupt => exact .inr (.inl ⟨rfl, rfl⟩)
    | execute budget => exact .inl ⟨.inl ⟨budget, rfl⟩, interrupted_execute machine budget⟩
  | run entry =>
    obtain ⟨slices, result, hr⟩ := h
    by_cases hb : machine.Begins (.run entry)
    · obtain ⟨-, -, -, -, -, hi, -⟩ := run_of_begins hb hr
      exact .inl ⟨.inr hb, hi⟩
    · obtain ⟨fault, hs⟩ := start_eq_error_of_not_begins hb
      rw [run_of_start_error hs] at hr
      cases hr
      exact .inr (.inr ⟨not_clears (by simp) hb, by simp, rfl⟩)

private theorem interrupt_of_running (h : machine.phase = .running) :
    machine.interrupt = { machine with interrupted := true } := if_pos h

private theorem interrupt_of_not_running (h : machine.phase ≠ .running) :
    machine.interrupt = machine :=
  if_neg h

private theorem Orderly.leadsTo (ho : machine.Orderly) (h : LeadsTo machine deed next) :
    next.Orderly := by
  rcases h.cases with ⟨-, hi⟩ | ⟨-, rfl⟩ | ⟨-, -, rfl⟩
  · intro hwaits
    rw [hi] at hwaits
    cases hwaits
  · by_cases hp : machine.phase = .running
    · rw [interrupt_of_running hp]
      exact fun _ => hp
    · rw [interrupt_of_not_running hp]
      exact ho
  · exact ho

/-- Where no invocation goes on, only the beginning of one leads away. -/
theorem Orderly.eq_of_not_begins (ho : machine.Orderly) (hp : machine.phase ≠ .running)
    (h : LeadsTo machine deed next) (hb : ¬ machine.Begins deed) : next = machine := by
  rcases h.cases with ⟨ht, -⟩ | ⟨-, rfl⟩ | ⟨-, -, rfl⟩
  · obtain ⟨budget, rfl⟩ := ht.resolve_right hb
    have hr : (machine.respond (.execute budget)).2 = next := h
    simp only [respond, ho.execute_of_not_running hp budget] at hr
    exact hr.symm
  · exact interrupt_of_not_running hp
  · rfl

/-- The beginning of an invocation does not look at whether an interrupt waits. -/
theorem start_waiting {entry : String} (hb : machine.Begins (.run entry)) (waiting : Bool) :
    { machine with interrupted := waiting }.start entry = machine.start entry := by
  obtain ⟨index, hs⟩ := start_eq_ok_of_begins hb
  simp only [start] at hs ⊢
  cases he : machine.program.entry entry with
  | error fault =>
    rw [he] at hs
    cases hs
  | ok found => rfl

private theorem respond_waiting {operation : Operation} (hb : machine.Begins (.operate operation))
    (waiting : Bool) :
    { machine with interrupted := waiting }.respond operation = machine.respond operation := by
  cases operation with
  | start entry =>
    obtain ⟨index, hs⟩ := start_eq_ok_of_begins hb
    simp only [respond, start_waiting hb, hs]
  | startAt index => rfl
  | interrupt => cases hb
  | execute budget => cases hb

private theorem run_waiting {entry : String} (hb : machine.Begins (.run entry)) (waiting : Bool)
    (slices : Nat) :
    { machine with interrupted := waiting }.run slices entry = machine.run slices entry := by
  obtain ⟨index, hs⟩ := start_eq_ok_of_begins hb
  rw [run, run, start_waiting hb, hs]

/-! ### Histories -/

private theorem interruptDue_concat {past : List (Machine × Deed)} :
    InterruptDue (past ++ [(machine, deed)]) ↔
      (deed = .operate .interrupt ∧ machine.phase = .running) ∨
        (InterruptDue past ∧ ¬ machine.Clears deed) := by
  constructor
  · rintro ⟨earlier, asked, later, heq, hp, hlater⟩
    rcases List.eq_nil_or_concat later with rfl | ⟨front, last, rfl⟩
    · obtain ⟨-, hlast⟩ := List.append_inj' heq rfl
      cases hlast
      exact .inl ⟨rfl, hp⟩
    · rw [List.concat_eq_append] at heq hlater
      have hsplit : past ++ [(machine, deed)] =
          (earlier ++ (asked, .operate .interrupt) :: front) ++ [last] := by simpa using heq
      obtain ⟨rfl, hlast⟩ := List.append_inj' hsplit rfl
      cases hlast
      refine .inr ⟨⟨earlier, asked, front, rfl, hp, ?_⟩, hlater (machine, deed) (by simp)⟩
      intro step hstep
      exact hlater step (List.mem_append_left _ hstep)
  · rintro (⟨rfl, hp⟩ | ⟨⟨earlier, asked, later, rfl, hp, hlater⟩, hd⟩)
    · exact ⟨past, machine, [], rfl, hp, nofun⟩
    · refine ⟨earlier, asked, later ++ [(machine, deed)], by simp, hp, ?_⟩
      intro step hstep
      rcases List.mem_append.mp hstep with hstep | hstep
      · exact hlater step hstep
      · cases List.mem_singleton.mp hstep
        exact hd

/-- An interrupt waits exactly when one is due. -/
theorem History.interrupted_iff {origin : Machine} {past : List (Machine × Deed)}
    (ho : origin.interrupted = false) (h : History origin past machine) :
    machine.interrupted = true ↔ InterruptDue past := by
  induction h with
  | nil =>
    constructor
    · intro hi
      rw [ho] at hi
      cases hi
    · rintro ⟨earlier, asked, later, heq, -⟩
      simp at heq
  | @snoc past machine next deed h hd ih =>
    rw [interruptDue_concat]
    rcases hd.cases with ⟨ht, hi⟩ | ⟨rfl, rfl⟩ | ⟨ht, hne, rfl⟩
    · have hne : deed ≠ .operate .interrupt := by
        rintro rfl
        exact not_clears_interrupt machine ht
      simp [hi, hne, ht]
    · by_cases hp : machine.phase = .running
      · simp [interrupt_of_running hp, hp]
      · simp only [interrupt_of_not_running hp, hp, and_false, false_or, not_clears_interrupt machine,
          not_false_eq_true, and_true]
        exact ih
    · simp only [hne, false_and, false_or, ht, not_false_eq_true, and_true]
      exact ih

private theorem History.orderly {origin : Machine} {past : List (Machine × Deed)}
    (ho : origin.Orderly) (h : History origin past machine) : machine.Orderly := by
  induction h with
  | nil => exact ho
  | snoc _ hd ih => exact ih.leadsTo hd

/-- Whatever a host has done with a machine since it was made: an interrupt waits only while an
invocation goes on. The next slice is stopped by one exactly when one is due, and then carries nothing
out. There is nothing to run exactly when no invocation goes on, and then a slice changes nothing; such
a machine is left only by the beginning of an invocation. An entry that is not known changes nothing.
An invocation begins alike whether or not an interrupt waits, and a run that found its entry ends with
the program, a failed host function or a fault. -/
theorem History.life_of_invocations {program : Program} {functions : FunctionTable}
    {memory : Registers} {maxDepth : Nat} {past : List (Machine × Deed)}
    (h : History (create program functions memory maxDepth) past machine) :
    (machine.interrupted = true → machine.phase = .running) ∧
    (∀ budget pc, (machine.execute budget).1 = .interrupted pc ↔
      pc = machine.pc ∧ InterruptDue past) ∧
    (∀ budget pc final, machine.execute budget = (.interrupted pc, final) →
      final = { machine with
        interrupted := false, frames := machine.frames.clear, phase := .idle } ∧
      final.depth = 0) ∧
    (∀ budget, (machine.execute budget).1 = .stopped ↔ machine.phase ≠ .running) ∧
    (∀ budget final, machine.execute budget = (.stopped, final) → final = machine) ∧
    (machine.phase ≠ .running → ∀ deed next, LeadsTo machine deed next →
      ¬ machine.Begins deed → next = machine) ∧
    (∀ entry fault, machine.program.entry entry = .error fault →
      machine.respond (.start entry) = (.refused fault, machine) ∧
      ∀ slices, machine.run slices entry = some (.error fault, machine)) ∧
    (∀ waiting operation, machine.Begins (.operate operation) →
      { machine with interrupted := waiting }.respond operation = machine.respond operation) ∧
    (∀ waiting entry slices, machine.Begins (.run entry) →
      { machine with interrupted := waiting }.run slices entry = machine.run slices entry) ∧
    ∀ slices entry result final, machine.Begins (.run entry) →
      machine.run slices entry = some (result, final) →
      ∃ started event, machine.start entry = .ok started ∧
        started.drive maxBudget slices = some (event, final) ∧ event.result = result ∧
        ((event = .exited ∧ final.phase = .exited) ∨
          ∃ fault, (event = .hostError fault ∧ final.phase = .running) ∨
            (event = .faulted fault ∧ final.phase = .faulted)) := by
  have ho : machine.Orderly := h.orderly fun hi => nomatch (show false = true from hi)
  have hdue : machine.interrupted = true ↔ InterruptDue past := h.interrupted_iff rfl
  refine ⟨ho, ?_, ?_, fun _ => ho.execute_stopped_iff, ?_, ?_, ?_, ?_, ?_, ?_⟩
  · intro budget pc
    rw [execute_interrupted_iff, hdue]
  · intro budget pc final he
    obtain ⟨-, hi⟩ := execute_interrupted_iff.mp (congrArg Prod.fst he)
    rw [execute_of_interrupted hi] at he
    cases he
    exact ⟨rfl, rfl⟩
  · intro budget final he
    have hp := ho.execute_stopped_iff.mp (congrArg Prod.fst he)
    rw [ho.execute_of_not_running hp] at he
    cases he
    rfl
  · intro hp deed next hd hb
    exact ho.eq_of_not_begins hp hd hb
  · intro entry fault he
    have hs : machine.start entry = .error fault := by
      simp only [start, he]
      rfl
    exact ⟨by simp only [respond, hs], run_of_start_error hs⟩
  · intro waiting operation hb
    exact respond_waiting hb waiting
  · intro waiting entry slices hb
    exact run_waiting hb waiting slices
  · intro slices entry result final hb hr
    obtain ⟨started, event, hs, hd, hresult, -, hcloses⟩ := run_of_begins hb hr
    exact ⟨started, event, hs, hd, hresult, hcloses⟩

/-- A run fails at a call that lacks its operands, an interrupt is asked for, and an entry that is not
known is started in vain: the next slice is stopped behind the call. -/
theorem History.life_of_invocations_failing_call :
    let code : Code :=
      { buffer := [0, 0, 0, 0, 0, 0, 80, 0], count := 2,
        entries := [{ name := "main", instruction := 0 }] }
    ∃ program, Program.ofCode code = .ok program ∧ ∃ failed,
      let origin := create program Builtin.table {} 1
      let past : List (Machine × Deed) :=
        [(origin, .run "main"), (failed, .operate .interrupt),
          (failed.interrupt, .operate (.start "other"))]
      History origin past failed.interrupt ∧ InterruptDue past ∧
        (failed.interrupt.execute 5).1 = .interrupted 1 := by
  intro code
  obtain ⟨program, hp⟩ :=
    Outcome.isOk_iff.mp (show (Program.ofCode code).isOk = true by decide +kernel)
  have hfacts : (Program.ofCode code).map (fun program =>
      ((create program Builtin.table {} 1).run 1 "main").map fun run =>
        (run.2.phase, run.2.pc, (run.2.program.entry "other").toOption)) =
      .ok (some (.running, 1, none)) := by decide +kernel
  rw [hp] at hfacts
  obtain ⟨⟨result, failed⟩, hrun, heq⟩ := Option.map_eq_some_iff.mp (Except.ok.inj hfacts)
  obtain ⟨hphase, heq⟩ := Prod.mk.inj heq
  obtain ⟨hpc, hother⟩ := Prod.mk.inj heq
  have hasked := interrupt_of_running hphase
  have hunknown : ¬ failed.interrupt.Clears (.operate (.start "other")) := by
    have hb : ¬ failed.interrupt.Begins (.operate (.start "other")) := by
      simp [Begins, starts?, hasked, hother]
    exact not_clears (by simp) hb
  have hrefused : LeadsTo failed.interrupt (.operate (.start "other")) failed.interrupt := by
    obtain ⟨fault, hs⟩ := start_eq_error_of_not_begins (not_or.mp hunknown).2
    simp only [LeadsTo, respond, hs]
  let origin := create program Builtin.table {} 1
  have hfailed : History origin [(origin, .run "main")] failed := .snoc .nil ⟨1, result, hrun⟩
  have hwaits : History origin [(origin, .run "main"), (failed, .operate .interrupt)]
      failed.interrupt := .snoc hfailed rfl
  have hdue : InterruptDue [(origin, .run "main"), (failed, .operate .interrupt),
      (failed.interrupt, .operate (.start "other"))] := by
    refine ⟨[_], failed, [_], rfl, hphase, ?_⟩
    intro step hstep
    cases List.mem_singleton.mp hstep
    exact hunknown
  have hpast := hwaits.snoc hrefused
  obtain ⟨-, hinterrupted, -⟩ := life_of_invocations hpast
  have hplace : 1 = failed.interrupt.pc := by rw [hasked, hpc]
  exact ⟨program, hp, failed, hpast, hdue, (hinterrupted 5 1).mpr ⟨hplace, hdue⟩⟩

end RegisterMachine.Machine
