import RegisterMachine.Host.Builtins
import RegisterMachine.Proofs.Runs

/-!
# How an invocation is cut into slices

A slice of any budget does what slices of one instruction each do, up to the first that ends
otherwise than by its budget. So a host that cuts an invocation up one way is told the same, in the
same order and with the machine in the same state, as a host that cuts it up another way. What a run
to the end returns is the first thing that either is told.
-/

namespace RegisterMachine.Machine

variable {machine : Machine}

/-- An invocation goes on, and no interrupt is waiting. -/
structure Ready (machine : Machine) : Prop where
  interrupted : machine.interrupted = false
  phase : machine.phase = .running

theorem Move.interrupted_eq {next : Machine} {op : Op} (h : Move machine op next) :
    next.interrupted = machine.interrupted := by
  cases h <;> rfl

namespace Ready

theorem execute_eq (h : machine.Ready) (budget : Nat) :
    machine.execute budget = machine.cycle budget := by
  simp [execute, h.interrupted, h.phase]

theorem next (h : machine.Ready) {next : Machine} (hs : machine.step = .ok (.next next)) :
    next.Ready := by
  obtain ⟨instruction, -, hm⟩ := move_of_step_next hs
  exact ⟨hm.interrupted_eq.trans h.interrupted, hm.phase_eq.trans h.phase⟩

theorem startAt (machine : Machine) (index : Nat) : (machine.startAt index).Ready := ⟨rfl, rfl⟩

end Ready

/-! ### Splitting a budget -/

/-- Go on with another slice, unless the last one ended otherwise than by its budget. -/
def resume (budget : Nat) : Event × Machine → Event × Machine
  | (.running, machine) => machine.execute budget
  | ended => ended

private theorem resume_of_ne {budget : Nat} {event : Event} (h : event ≠ .running) :
    resume budget (event, machine) = (event, machine) := by
  cases event with
  | running => exact absurd rfl h
  | _ => rfl

private theorem cycle_add (h : machine.Ready) (first second : Nat) :
    machine.cycle (first + second) = resume second (machine.cycle first) := by
  induction first generalizing machine with
  | zero =>
    rw [Nat.zero_add, cycle, resume]
    exact (h.execute_eq second).symm
  | succ first ih =>
    rw [Nat.succ_add, cycle, cycle]
    cases hs : machine.step with
    | error fault => rfl
    | ok result =>
      cases result with
      | exit => rfl
      | hostError fault next => rfl
      | next next => exact ih (h.next hs)

/-- A budget can be handed out in two parts, and the second is not touched once the first has ended
otherwise than by its budget. -/
theorem execute_add (machine : Machine) (first second : Nat) :
    machine.execute (first + second) = resume second (machine.execute first) := by
  cases hi : machine.interrupted with
  | true => simp [execute, hi, resume]
  | false =>
    by_cases hp : machine.phase = .running
    · have h : machine.Ready := ⟨hi, hp⟩
      rw [h.execute_eq, h.execute_eq]
      exact cycle_add h first second
    · simp [execute, hi, hp, resume]

theorem Ready.of_cycle_running (h : machine.Ready) {budget : Nat} {next : Machine}
    (hc : machine.cycle budget = (.running, next)) : next.Ready := by
  induction budget generalizing machine with
  | zero =>
    cases hc
    exact h
  | succ budget ih =>
    rw [cycle] at hc
    split at hc
    · next mid hs => exact ih (h.next hs) hc
    · cases hc
    · cases hc
    · cases hc

/-- A slice that ends otherwise than by its budget has run without event up to its last
instruction. -/
theorem cycle_eq_ended {budget : Nat} {event : Event} {final : Machine}
    (h : machine.cycle budget = (event, final)) (he : event ≠ .running) :
    ∃ spent before, spent < budget ∧ machine.cycle spent = (.running, before) ∧
      before.cycle 1 = (event, final) := by
  induction budget generalizing machine with
  | zero =>
    cases h
    exact absurd rfl he
  | succ budget ih =>
    by_cases hs : ∃ next, machine.step = .ok (.next next)
    · obtain ⟨next, hs⟩ := hs
      rw [cycle, hs] at h
      obtain ⟨spent, before, hlt, hrun, hlast⟩ := ih h
      refine ⟨spent + 1, before, Nat.succ_lt_succ hlt, ?_, hlast⟩
      rw [cycle, hs]
      exact hrun
    · refine ⟨0, machine, Nat.succ_pos budget, rfl, ?_⟩
      rw [cycle] at h ⊢
      split at h
      · next next hn => exact absurd ⟨next, hn⟩ hs
      · next hn => simpa only [hn] using h
      · next hn => simpa only [hn] using h
      · next hn => simpa only [hn] using h

/-- A slice that ends with a host error has run without event up to the call that failed. -/
theorem execute_eq_hostError {budget : Nat} {fault : Fault} {final : Machine}
    (h : machine.execute budget = (.hostError fault, final)) :
    ∃ spent before, spent < budget ∧ machine.execute spent = (.running, before) ∧ before.Ready ∧
      before.step = .ok (.hostError fault final) := by
  have hready : machine.Ready := by
    unfold execute at h
    split at h
    · cases h
    · next hi =>
      split at h
      · next hp => exact ⟨eq_false_of_ne_true hi, hp⟩
      · cases h
  rw [hready.execute_eq] at h
  obtain ⟨spent, before, hlt, hrun, hlast⟩ := cycle_eq_ended h nofun
  refine ⟨spent, before, hlt, (hready.execute_eq spent).trans hrun, hready.of_cycle_running hrun, ?_⟩
  rw [cycle] at hlast
  split at hlast
  · cases hlast
  · cases hlast
  · next hs =>
    cases hlast
    exact hs
  · cases hlast

private theorem event_of_cycle {budget : Nat} {event : Event} {final : Machine}
    (h : machine.cycle budget = (event, final)) (he : event ≠ .running) :
    event = .exited ∨ ∃ fault, event = .hostError fault ∨ event = .faulted fault := by
  obtain ⟨spent, before, -, -, hlast⟩ := cycle_eq_ended h he
  rw [cycle] at hlast
  split at hlast
  · cases hlast
    exact absurd rfl he
  · cases hlast
    exact .inl rfl
  · cases hlast
    exact .inr ⟨_, .inl rfl⟩
  · cases hlast
    exact .inr ⟨_, .inr rfl⟩

/-! ### What a host is told -/

/-- What a host that hands out these budgets is told apart from their being used up, each time with
the machine as it then stands. -/
def reports : Machine → List Nat → List (Event × Machine)
  | _, [] => []
  | machine, budget :: rest =>
    match machine.execute budget with
    | (.running, next) => next.reports rest
    | (event, next) => (event, next) :: next.reports rest

def afterSlices (machine : Machine) (budgets : List Nat) : Machine :=
  machine.after (budgets.map .execute)

theorem afterSlices_cons (machine : Machine) (budget : Nat) (rest : List Nat) :
    machine.afterSlices (budget :: rest) = (machine.execute budget).2.afterSlices rest := rfl

private theorem afterSlices_append (machine : Machine) (budgets more : List Nat) :
    machine.afterSlices (budgets ++ more) = (machine.afterSlices budgets).afterSlices more := by
  simp [afterSlices, after]

private theorem reports_cons_running {budget : Nat} {next : Machine}
    (h : machine.execute budget = (.running, next)) (rest : List Nat) :
    machine.reports (budget :: rest) = next.reports rest := by
  rw [reports, h]

private theorem reports_cons_of_ne {budget : Nat} {event : Event} {next : Machine}
    (h : machine.execute budget = (event, next)) (he : event ≠ .running) (rest : List Nat) :
    machine.reports (budget :: rest) = (event, next) :: next.reports rest := by
  rw [reports, h]
  cases event with
  | running => exact absurd rfl he
  | _ => rfl

theorem reports_append (machine : Machine) (budgets more : List Nat) :
    machine.reports (budgets ++ more) =
      machine.reports budgets ++ (machine.afterSlices budgets).reports more := by
  induction budgets generalizing machine with
  | nil => rfl
  | cons budget rest ih =>
    rcases he : machine.execute budget with ⟨event, next⟩
    rw [afterSlices_cons, he, List.cons_append]
    by_cases hr : event = .running
    · subst hr
      rw [reports_cons_running he, reports_cons_running he, ih]
    · rw [reports_cons_of_ne he hr, reports_cons_of_ne he hr, ih, List.cons_append]

/-- Hosts that hand out these budgets are told the same and leave the machine in the same state. -/
structure Agree (machine : Machine) (budgets others : List Nat) : Prop where
  reports_eq : machine.reports budgets = machine.reports others
  afterSlices_eq : machine.afterSlices budgets = machine.afterSlices others

theorem Agree.append {budgets others more rest : List Nat} (h : machine.Agree budgets others)
    (hr : (machine.afterSlices budgets).Agree more rest) :
    machine.Agree (budgets ++ more) (others ++ rest) where
  reports_eq := by
    rw [reports_append, reports_append, h.reports_eq, hr.reports_eq, h.afterSlices_eq]
  afterSlices_eq := by
    rw [afterSlices_append, afterSlices_append, hr.afterSlices_eq, h.afterSlices_eq]

/-- A budget does what so many single instructions do. The number need not be the budget, because a
slice that ends early leaves the rest of its budget unused. -/
theorem exists_agree_singles (machine : Machine) (budget : Nat) :
    ∃ count, machine.Agree [budget + 1] (List.replicate (count + 1) 1) := by
  induction budget generalizing machine with
  | zero => exact ⟨0, rfl, rfl⟩
  | succ budget ih =>
    have hsplit := machine.execute_add 1 (budget + 1)
    rw [Nat.add_comm 1] at hsplit
    rcases he : machine.execute 1 with ⟨event, next⟩
    rw [he] at hsplit
    by_cases hr : event = .running
    · subst hr
      obtain ⟨count, hreports, hafter⟩ := ih next
      refine ⟨count + 1, ?_, ?_⟩
      · rw [List.replicate_succ, reports_cons_running he, ← hreports]
        simp only [reports, hsplit, resume]
      · rw [List.replicate_succ, afterSlices_cons, afterSlices_cons, he, ← hafter, hsplit]
        rfl
    · rw [resume_of_ne hr] at hsplit
      refine ⟨0, ?_, ?_⟩
      · rw [List.replicate_one, reports_cons_of_ne hsplit hr, reports_cons_of_ne he hr]
      · rw [List.replicate_one, afterSlices_cons, afterSlices_cons, hsplit, he]

/-- So do budgets in a row, each of which is good for at least one instruction. -/
theorem exists_agree_replicate (machine : Machine) {budgets : List Nat}
    (hpos : ∀ budget ∈ budgets, 0 < budget) :
    ∃ count, budgets.length ≤ count ∧ machine.Agree budgets (List.replicate count 1) := by
  induction budgets generalizing machine with
  | nil => exact ⟨0, Nat.le_refl 0, rfl, rfl⟩
  | cons budget rest ih =>
    obtain ⟨hbudget, hrest⟩ := List.forall_mem_cons.mp hpos
    obtain ⟨budget, rfl⟩ := Nat.exists_eq_succ_of_ne_zero (Nat.ne_of_gt hbudget)
    obtain ⟨first, hfirst⟩ := machine.exists_agree_singles budget
    obtain ⟨others, hle, hothers⟩ := ih (machine.afterSlices [budget + 1]) hrest
    refine ⟨first + 1 + others, ?_, ?_⟩
    · rw [List.length_cons]
      omega
    · rw [← List.replicate_append_replicate]
      exact hfirst.append hothers

/-- The first budgets of a sequence. -/
def budgetRow (budgets : Nat → Nat) (count : Nat) : List Nat := (List.range count).map budgets

private theorem pos_of_mem_budgetRow {budgets : Nat → Nat} (hpos : ∀ i, 0 < budgets i)
    (count : Nat) :
    ∀ budget ∈ budgetRow budgets count, 0 < budget := by
  intro budget hmem
  obtain ⟨i, -, rfl⟩ := List.mem_map.mp hmem
  exact hpos i

theorem budgetRow_const (budget count : Nat) :
    budgetRow (fun _ => budget) count = List.replicate count budget := by
  simp [budgetRow, List.map_const']

/-- Whatever one host has been told so far, another will be told too, in the same order. -/
theorem reports_prefix_reports (machine : Machine) {first second : Nat → Nat}
    (hf : ∀ i, 0 < first i) (hs : ∀ i, 0 < second i) (count : Nat) :
    ∃ enough,
      machine.reports (budgetRow first count) <+: machine.reports (budgetRow second enough) := by
  obtain ⟨few, -, hfew⟩ := machine.exists_agree_replicate (pos_of_mem_budgetRow hf count)
  -- As many budgets as the first host has used instructions are enough for the second.
  obtain ⟨many, hmany, hagree⟩ := machine.exists_agree_replicate (pos_of_mem_budgetRow hs few)
  have hle : few ≤ many := by
    simpa [budgetRow] using hmany
  refine ⟨few, (machine.afterSlices (List.replicate few 1)).reports
    (List.replicate (many - few) 1), ?_⟩
  rw [hfew.reports_eq, hagree.reports_eq, ← reports_append, List.replicate_append_replicate,
    Nat.add_sub_cancel' hle]

/-! ### Running to the end -/

/-- The first thing that a host which hands out these budgets is told. -/
def FirstReport (machine : Machine) (budgets : Nat → Nat) (report : Event × Machine) : Prop :=
  ∃ count, (machine.reports (budgetRow budgets count)).head? = some report

theorem FirstReport.of_budgets {first second : Nat → Nat} (hf : ∀ i, 0 < first i)
    (hs : ∀ i, 0 < second i) {report : Event × Machine} (h : machine.FirstReport first report) :
    machine.FirstReport second report := by
  obtain ⟨count, hhead⟩ := h
  obtain ⟨enough, more, heq⟩ := machine.reports_prefix_reports hf hs count
  refine ⟨enough, ?_⟩
  rw [← heq, List.head?_append, hhead]
  rfl

theorem drive_eq_head? (machine : Machine) (budget slices : Nat) :
    machine.drive budget slices = (machine.reports (List.replicate slices budget)).head? := by
  induction slices generalizing machine with
  | zero => rfl
  | succ slices ih =>
    rcases he : machine.execute budget with ⟨event, next⟩
    rw [List.replicate_succ]
    by_cases hr : event = .running
    · subst hr
      rw [drive, he, reports_cons_running he]
      exact ih next
    · rw [drive, he, reports_cons_of_ne he hr]
      cases event with
      | running => exact absurd rfl hr
      | _ => rfl

/-- The first thing that a host is told of an invocation is its end or a failed host function. -/
theorem Ready.event_of_head? (h : machine.Ready) {budgets : List Nat} {event : Event}
    {final : Machine} (hh : (machine.reports budgets).head? = some (event, final)) :
    event = .exited ∨ ∃ fault, event = .hostError fault ∨ event = .faulted fault := by
  induction budgets generalizing machine with
  | nil => cases hh
  | cons budget rest ih =>
    rcases he : machine.execute budget with ⟨found, next⟩
    have hc := (h.execute_eq budget).symm.trans he
    by_cases hr : found = .running
    · subst hr
      rw [reports_cons_running he] at hh
      exact ih (h.of_cycle_running hc) hh
    · rw [reports_cons_of_ne he hr] at hh
      cases hh
      exact event_of_cycle hc hr

/-- A run to the end returns the first report of any host, as a result. -/
theorem run_eq_some_iff {started : Machine} {entry : String} (hs : machine.start entry = .ok started)
    {budgets : Nat → Nat} (hpos : ∀ i, 0 < budgets i) {result : Except Fault Unit}
    {final : Machine} :
    (∃ slices, machine.run slices entry = some (result, final)) ↔
      ∃ event, started.FirstReport budgets (event, final) ∧ event.result = result := by
  have hrun : ∀ slices, machine.run slices entry =
      ((started.reports (budgetRow (fun _ => maxBudget) slices)).head?).map
        fun report => (report.1.result, report.2) := by
    intro slices
    rw [run, hs, budgetRow_const, ← drive_eq_head?]
  have hmax : ∀ _ : Nat, 0 < maxBudget := fun _ => by decide
  constructor
  · rintro ⟨slices, h⟩
    rw [hrun, Option.map_eq_some_iff] at h
    obtain ⟨⟨event, reached⟩, hh, heq⟩ := h
    cases heq
    exact ⟨event, .of_budgets hmax hpos ⟨slices, hh⟩, rfl⟩
  · rintro ⟨event, hfirst, rfl⟩
    obtain ⟨slices, hh⟩ := hfirst.of_budgets hpos hmax
    exact ⟨slices, by rw [hrun, hh]; rfl⟩

theorem run_of_start_error {fault : Fault} {entry : String} (h : machine.start entry = .error fault)
    (slices : Nat) : machine.run slices entry = some (.error fault, machine) := by
  rw [run, h]

private theorem ready_of_start {started : Machine} {entry : String}
    (h : machine.start entry = .ok started) : started.Ready := by
  obtain ⟨index, -, h⟩ := Outcome.bind_eq_ok.mp h
  cases h
  exact .startAt machine index

/-- However the budgets of a host are cut, a slice of two budgets is the slices of each; two hosts are
told the same one after the other, with the machine in the same state each time; and a run to the end
succeeds exactly when the first thing they are told is that the program came to its end, and fails
exactly when it is a fault, with that fault. -/
theorem slices_told_alike (machine : Machine) :
    (∀ first second, machine.execute (first + second) = resume second (machine.execute first)) ∧
    (∀ first second : Nat → Nat, (∀ i, 0 < first i) → (∀ i, 0 < second i) → ∀ count, ∃ enough,
      machine.reports (budgetRow first count) <+: machine.reports (budgetRow second enough)) ∧
    ∀ (entry : String) (budgets : Nat → Nat), (∀ i, 0 < budgets i) →
      match machine.start entry with
      | .error fault => ∀ slices, machine.run slices entry = some (.error fault, machine)
      | .ok started => ∀ final,
        ((∃ slices, machine.run slices entry = some (.ok (), final)) ↔
          started.FirstReport budgets (.exited, final)) ∧
        ∀ fault, (∃ slices, machine.run slices entry = some (.error fault, final)) ↔
          started.FirstReport budgets (.hostError fault, final) ∨
            started.FirstReport budgets (.faulted fault, final) := by
  refine ⟨machine.execute_add, fun first second hf hs => machine.reports_prefix_reports hf hs, ?_⟩
  intro entry budgets hpos
  split
  · next fault h => exact run_of_start_error h
  · next started h =>
    have hevent : ∀ event final, started.FirstReport budgets (event, final) →
        event = .exited ∨ ∃ fault, event = .hostError fault ∨ event = .faulted fault := by
      rintro event final ⟨count, hh⟩
      exact (ready_of_start h).event_of_head? hh
    refine fun final => ⟨(run_eq_some_iff h hpos).trans ?_, fun fault =>
      (run_eq_some_iff h hpos).trans ?_⟩
    · constructor
      · rintro ⟨event, hfirst, hresult⟩
        rcases hevent event final hfirst with rfl | ⟨fault, rfl | rfl⟩
        · exact hfirst
        · cases hresult
        · cases hresult
      · exact fun hfirst => ⟨_, hfirst, rfl⟩
    · constructor
      · rintro ⟨event, hfirst, hresult⟩
        rcases hevent event final hfirst with rfl | ⟨found, rfl | rfl⟩
        · cases hresult
        · cases hresult
          exact .inl hfirst
        · cases hresult
          exact .inr hfirst
      · rintro (hfirst | hfirst)
        · exact ⟨_, hfirst, rfl⟩
        · exact ⟨_, hfirst, rfl⟩

/-- A call that lacks its operands fails, and the program then ends: a host that hands out single
instructions is told so, one that hands out seven at a time is told the same, and a run to the end
fails with the first. -/
theorem slices_told_alike_failing_call :
    let code : Code :=
      { buffer := [0, 0, 0, 0, 0, 0, 80, 0], count := 2,
        entries := [{ name := "main", instruction := 0 }] }
    let missing : Fault :=
      { cause := .hostFailure, instruction := some 0, note := "MISSING OPERAND" }
    ∃ program, Program.ofCode code = .ok program ∧
      let machine := create program Builtin.table {} 1
      let started := machine.startAt 0
      (started.reports (budgetRow (fun _ => 1) 2)).map Prod.fst = [.hostError missing, .exited] ∧
      (∃ enough, started.reports (budgetRow (fun _ => 1) 2) <+:
        started.reports (budgetRow (fun _ => 7) enough)) ∧
      ∃ slices final, machine.run slices "main" = some (.error missing, final) := by
  intro code missing
  obtain ⟨program, hp⟩ :=
    Outcome.isOk_iff.mp (show (Program.ofCode code).isOk = true by decide +kernel)
  have hfacts : (Program.ofCode code).map (fun program =>
      let started := (create program Builtin.table {} 1).startAt 0
      ((started.reports (budgetRow (fun _ => 1) 2)).map Prod.fst, (started.execute 1).1,
        decide (program.entry "main" = .ok 0))) =
        .ok ([.hostError missing, .exited], .hostError missing, true) := by decide +kernel
  rw [hp] at hfacts
  have hreports := congrArg Prod.fst (Except.ok.inj hfacts)
  have hevent := congrArg (fun facts => facts.2.1) (Except.ok.inj hfacts)
  have hentry : program.entry "main" = .ok 0 :=
    of_decide_eq_true (congrArg (fun facts => facts.2.2) (Except.ok.inj hfacts))
  refine ⟨program, hp, hreports, ?_, ?_⟩
  · exact (slices_told_alike _).2.1 _ _ (fun _ => by decide) (fun _ => by decide) 2
  · have hstart : (create program Builtin.table {} 1).start "main" =
        .ok ((create program Builtin.table {} 1).startAt 0) :=
      Outcome.bind_eq_ok.mpr ⟨0, hentry, rfl⟩
    have hrun := (slices_told_alike (create program Builtin.table {} 1)).2.2 "main" (fun _ => 1)
      (fun _ => by decide)
    rw [hstart] at hrun
    have he : ((create program Builtin.table {} 1).startAt 0).execute 1 =
        (.hostError missing, _) := Prod.ext hevent rfl
    obtain ⟨slices, hslices⟩ := ((hrun _).2 missing).mpr (.inl ⟨1, by
      rw [budgetRow_const, List.replicate_one, reports_cons_of_ne he nofun]
      rfl⟩)
    exact ⟨slices, _, hslices⟩

end RegisterMachine.Machine
