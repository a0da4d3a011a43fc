import RegisterMachine.Fault

/-!
# Outcomes that may be refused

How a computation that can be refused is taken apart: what its success says of its parts, and which
faults it can end with. Work on a state that is done in place is compared with such a computation.
-/

namespace RegisterMachine.Outcome

variable {ε α β : Type}

instance decidableEqOk [DecidableEq α] (x : Except ε α) (a : α) : Decidable (x = .ok a) :=
  match x with
  | .ok b => decidable_of_iff (b = a) ⟨congrArg _, Except.ok.inj⟩
  | .error _ => isFalse nofun

theorem isOk_iff {x : Except ε α} : x.isOk = true ↔ ∃ a, x = .ok a := by
  cases x <;> simp [Except.isOk, Except.toBool]

theorem bind_eq_ok {x : Except ε α} {f : α → Except ε β} {b : β} :
    (x >>= f) = .ok b ↔ ∃ a, x = .ok a ∧ f a = .ok b := by
  cases x <;> simp [bind, Except.bind]

theorem bind_eq_error {x : Except ε α} {f : α → Except ε β} {e : ε} :
    (x >>= f) = .error e ↔ x = .error e ∨ ∃ a, x = .ok a ∧ f a = .error e := by
  cases x <;> simp [bind, Except.bind]

theorem map_eq_ok {x : Except ε α} {f : α → β} {b : β} :
    x.map f = .ok b ↔ ∃ a, x = .ok a ∧ f a = b := by
  cases x <;> simp [Except.map]

theorem map_bind (x : Except ε α) (f : α → Except ε β) {γ : Type} (g : β → γ) :
    (x >>= f).map g = x >>= fun a => (f a).map g := by
  cases x <;> rfl

theorem mapError_eq_ok {x : Except ε α} {f : ε → ε} {a : α} :
    x.mapError f = .ok a ↔ x = .ok a := by
  cases x with
  | ok b => exact Iff.rfl
  | error e => exact ⟨nofun, nofun⟩

theorem pure_eq_ok {a b : α} : (pure a : Except ε α) = .ok b ↔ a = b := by
  simp [pure, Except.pure]

theorem mapM_eq_error {f : α → Except ε β} {l : List α} {e : ε} (h : l.mapM f = .error e) :
    ∃ a ∈ l, f a = .error e := by
  induction l with
  | nil => cases h
  | cons a l ih =>
    rw [List.mapM_cons, bind_eq_error] at h
    rcases h with h | ⟨b, -, h⟩
    · exact ⟨a, List.mem_cons_self, h⟩
    · rcases bind_eq_error.mp h with h | ⟨bs, -, h⟩
      · obtain ⟨c, hc, he⟩ := ih h
        exact ⟨c, List.mem_cons_of_mem a hc, he⟩
      · cases h

/-- What every step of a fold keeps, the whole fold keeps. -/
theorem foldlM_keeps {P : β → Prop} {f : β → α → Except ε β}
    (hf : ∀ s a t, P s → f s a = .ok t → P t) {l : List α} {s t : β} (hs : P s)
    (h : l.foldlM f s = .ok t) : P t := by
  induction l generalizing s with
  | nil =>
    cases h
    exact hs
  | cons a l ih =>
    obtain ⟨u, hu, hr⟩ := bind_eq_ok.mp h
    exact ih (hf s a u hs hu) hr

/-- Whatever fault a computation ends with has a property. -/
def Faults (P : ε → Prop) (x : Except ε α) : Prop := ∀ e, x = .error e → P e

variable {P : ε → Prop}

theorem faults_ok (a : α) : Faults P (.ok a : Except ε α) := nofun

theorem faults_error {e : ε} (h : P e) : Faults P (.error e : Except ε α) := by
  rintro _ ⟨⟩
  exact h

theorem Faults.bind_of_ok {x : Except ε α} {f : α → Except ε β} (hx : Faults P x)
    (hf : ∀ a, x = .ok a → Faults P (f a)) : Faults P (x >>= f) := by
  intro e h
  rcases bind_eq_error.mp h with h | ⟨a, ha, h⟩
  · exact hx e h
  · exact hf a ha e h

theorem Faults.bind {x : Except ε α} {f : α → Except ε β} (hx : Faults P x)
    (hf : ∀ a, Faults P (f a)) : Faults P (x >>= f) :=
  hx.bind_of_ok fun a _ => hf a

end RegisterMachine.Outcome

/-! ### Work on a state -/

namespace RegisterMachine.InPlace

variable {σ α β : Type} {state : σ}

/-- Look at the state and leave it alone. -/
def inspect (view : σ → Except Fault α) : EStateM Fault σ α := fun state =>
  match view state with
  | .ok a => .ok a state
  | .error fault => .error fault state

/-- Do work and answer with what came of it, be it a fault. -/
def attempt (work : EStateM Fault σ α) : EStateM Fault σ (Except Fault α) := fun state =>
  match work.run state with
  | .ok a next => .ok (.ok a) next
  | .error fault next => .ok (.error fault) next

/-- What work comes to that changes nothing when it is refused. -/
def settle (state : σ) : Except Fault (α × σ) → EStateM.Result Fault σ α
  | .ok (a, next) => .ok a next
  | .error fault => .error fault state

theorem run_inspect_ok {view : σ → Except Fault α} {a : α} (h : view state = .ok a) :
    (inspect view).run state = .ok a state := by
  simp only [EStateM.run, inspect, h]

theorem run_inspect_error {view : σ → Except Fault α} {fault : Fault} (h : view state = .error fault) :
    (inspect view).run state = .error fault state := by
  simp only [EStateM.run, inspect, h]

theorem run_get_bind (next : σ → EStateM Fault σ α) :
    (get >>= next).run state = (next state).run state := rfl

theorem run_attempt (work : EStateM Fault σ α) :
    (attempt work).run state =
      match work.run state with
      | .ok a next => .ok (.ok a) next
      | .error fault next => .ok (.error fault) next := rfl

/-- Behind a look, work is done on the state as it was. -/
theorem run_inspect_bind {view : σ → Except Fault α} {next : α → EStateM Fault σ β}
    {outcome : α → Except Fault (β × σ)}
    (h : ∀ a, view state = .ok a → (next a).run state = settle state (outcome a)) :
    (inspect view >>= next).run state = settle state (view state >>= outcome) := by
  rw [EStateM.run_bind]
  cases hv : view state with
  | error fault =>
    rw [run_inspect_error hv]
    rfl
  | ok a =>
    rw [run_inspect_ok hv]
    exact h a hv

end RegisterMachine.InPlace
