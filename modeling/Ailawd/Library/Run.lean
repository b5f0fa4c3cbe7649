/-!
# Runs of a partial step function

A step function either yields the next state, is disabled for its label, or stops
the whole system with a fault. `Run step s ms t` records a finite run from `s` to
`t` together with every move it made, so a property of a run can speak about the
states before and after each of its steps and about their order.

The labels carry all nondeterminism: a property of every run is a property of
every schedule and of every answer of the environment. `exec` replays a list of
labels and is proved to produce exactly a run, which is how concrete runs are
exhibited.
-/

namespace Transition

/-- Why a step yields no next state: it is not possible here,
or it ends the program. -/
inductive Stop (φ : Type) where
  | disabled
  | fault (f : φ)
  deriving DecidableEq, Repr

/-- One step of a run with its two end states, so that a guard can speak of
what was there before. -/
structure Move (σ ℓ : Type) where
  pre : σ
  label : ℓ
  post : σ

/-- A finite run and its moves, oldest first. Runs grow at their end, as the
inductions over them do. -/
inductive Run {σ ℓ φ : Type} (step : σ → ℓ → Except (Stop φ) σ) (start : σ) :
    List (Move σ ℓ) → σ → Prop where
  | nil : Run step start [] start
  | snoc {moves s a t} : Run step start moves s → step s a = .ok t →
      Run step start (moves ++ [⟨s, a, t⟩]) t

variable {σ ℓ φ : Type} {step : σ → ℓ → Except (Stop φ) σ} {start s t : σ}
variable {moves front back : List (Move σ ℓ)}

namespace Run

/-- Every move of a run was allowed by the step function, in
the state that it records. -/
theorem step_of_mem (h : Run step start moves s) :
    ∀ m ∈ moves, step m.pre m.label = .ok m.post := by
  induction h with
  | nil => simp
  | snoc _ hs ih =>
      intro m hm
      rcases List.mem_append.mp hm with old | new
      · exact ih m old
      · obtain rfl := List.mem_singleton.mp new
        exact hs

/-- Cutting a run before one of its moves leaves a run that
ends where the move starts. -/
theorem before {m : Move σ ℓ} (h : Run step start (front ++ m :: back) s) :
    Run step start front m.pre := by
  generalize hms : front ++ m :: back = ms at h
  induction h generalizing back with
  | nil => simp at hms
  | snoc hr _ ih =>
      rcases List.eq_nil_or_concat back with rfl | ⟨back, last, rfl⟩
      · obtain ⟨rfl, hm⟩ := List.append_inj' hms rfl
        obtain rfl := List.singleton_inj.mp hm
        exact hr
      · rw [List.concat_eq_append, ← List.cons_append, ← List.append_assoc] at hms
        exact ih (List.append_inj' hms rfl).1

/-- What follows a move is a run from the state after it. With `before` this
cuts a run at any of its moves. -/
theorem after {m : Move σ ℓ} (h : Run step start (front ++ m :: back) s) :
    Run step m.post back s := by
  generalize hms : front ++ m :: back = ms at h
  induction h generalizing back with
  | nil => simp at hms
  | snoc _ hs ih =>
      obtain rfl | ⟨back, last, rfl⟩ := List.eq_nil_or_concat back
      · obtain ⟨-, hm⟩ := List.append_inj' hms rfl
        obtain rfl := List.singleton_inj.mp hm
        exact .nil
      · rw [List.concat_eq_append, ← List.cons_append, ← List.append_assoc] at hms
        obtain ⟨hfront, hlast⟩ := List.append_inj' hms rfl
        obtain rfl := List.singleton_inj.mp hlast
        rw [List.concat_eq_append]
        exact (ih hfront).snoc hs

theorem one {a : ℓ} (hs : step s a = .ok t) : Run step s [⟨s, a, t⟩] t :=
  Run.nil.snoc hs

theorem eq_of_nil (h : Run step start [] s) : s = start := by
  generalize hms : ([] : List (Move σ ℓ)) = moves at h
  cases h with
  | nil => rfl
  | snoc _ _ => simp at hms

theorem append {more : List (Move σ ℓ)} (h : Run step start moves s)
    (h' : Run step s more t) : Run step start (moves ++ more) t := by
  induction h' with
  | nil => simpa using h
  | snoc _ hs ih =>
      rw [← List.append_assoc]
      exact ih.snoc hs

theorem exists_last (h : Run step start moves s) (hne : moves ≠ []) :
    ∃ m ∈ moves, m.post = s := by
  cases h with
  | nil => exact absurd rfl hne
  | @snoc moves r a _ _ _ => exact ⟨⟨r, a, s⟩, by simp, rfl⟩

/-- The invariant rule. A guard that every move of the run satisfies may be
used in the step case. -/
theorem invariant_of {P : Move σ ℓ → Prop} {I : σ → Prop} (h : Run step start moves s)
    (guard : ∀ m ∈ moves, P m) (init : I start)
    (preserved : ∀ s a t, I s → P ⟨s, a, t⟩ → step s a = .ok t → I t) : I s := by
  induction h with
  | nil => exact init
  | @snoc moves s a t _ hs ih =>
      refine preserved s a t (ih ?_) (guard _ (by simp)) hs
      exact fun m hm => guard m (List.mem_append_left _ hm)

theorem invariant {I : σ → Prop} (h : Run step start moves s) (init : I start)
    (preserved : ∀ s a t, I s → step s a = .ok t → I t) : I s :=
  h.invariant_of (P := fun _ => True) (fun _ _ => trivial) init
    (fun s a t hi _ hs => preserved s a t hi hs)

/-- An invariant holds in particular before each move of the run, together with
what its guard says there. -/
theorem invariant_of_mem {P : Move σ ℓ → Prop} {I : σ → Prop} (h : Run step start moves s)
    (guard : ∀ m ∈ moves, P m) (init : I start)
    (preserved : ∀ s a t, I s → P ⟨s, a, t⟩ → step s a = .ok t → I t) :
    ∀ m ∈ moves, I m.pre := by
  intro m hm
  obtain ⟨front, back, rfl⟩ := List.append_of_mem hm
  refine h.before.invariant_of (fun m' hm' => guard m' ?_) init preserved
  exact List.mem_append_left _ hm'

/-- The variant rule: where every step makes a measure smaller, its value at
the start bounds the length of the run. -/
theorem length_le (measure : σ → Nat) (h : Run step start moves s)
    (decreases : ∀ s a t, step s a = .ok t → measure t < measure s) :
    moves.length + measure s ≤ measure start := by
  induction h with
  | nil => simp
  | snoc _ hs ih =>
      have := decreases _ _ _ hs
      rw [List.length_append, List.length_singleton]
      omega

/-- The variant rule for some of the moves, where the others do not
make the measure larger. -/
theorem filter_length_le (measure : σ → Nat) (counted : Move σ ℓ → Bool)
    (h : Run step start moves s)
    (decreases : ∀ m ∈ moves, counted m = true → measure m.post < measure m.pre)
    (keeps : ∀ m ∈ moves, counted m = false → measure m.post ≤ measure m.pre) :
    (moves.filter counted).length + measure s ≤ measure start := by
  induction h with
  | nil => simp
  | @snoc moves s a t _ hs ih =>
      have hlast : ⟨s, a, t⟩ ∈ moves ++ [(⟨s, a, t⟩ : Move σ ℓ)] := by simp
      have hbefore := ih (fun m hm => decreases m (List.mem_append_left _ hm))
        fun m hm => keeps m (List.mem_append_left _ hm)
      rw [List.filter_append, List.length_append]
      cases hcounted : counted ⟨s, a, t⟩ with
      | true =>
          have hlt : measure t < measure s := decreases _ hlast hcounted
          rw [List.filter_cons_of_pos hcounted, List.filter_nil, List.length_singleton]
          omega
      | false =>
          have hle : measure t ≤ measure s := keeps _ hlast hcounted
          rw [List.filter_cons_of_neg (by simp [hcounted]), List.filter_nil, List.length_nil]
          omega

end Run

/-- The states of a run: before each move, and at its end. For properties of
all states that are not invariants. -/
def Visits (moves : List (Move σ ℓ)) (last s : σ) : Prop := s = last ∨ ∃ m ∈ moves, s = m.pre

/-- An invariant holds in every state of the run. -/
theorem Run.invariant_of_visits {P : Move σ ℓ → Prop} {I : σ → Prop}
    (h : Run step start moves s) (guard : ∀ m ∈ moves, P m) (init : I start)
    (preserved : ∀ s a t, I s → P ⟨s, a, t⟩ → step s a = .ok t → I t) :
    ∀ u, Visits moves s u → I u := by
  rintro u (rfl | ⟨m, hm, rfl⟩)
  · exact h.invariant_of guard init preserved
  · exact h.invariant_of_mem guard init preserved m hm

/-- Replay a list of labels, by the step function alone. A concrete run is
checked by evaluating it. -/
def exec (step : σ → ℓ → Except (Stop φ) σ) : σ → List ℓ → Except (Stop φ) σ
  | s, [] => .ok s
  | s, a :: as =>
    match step s a with
    | .ok t => exec step t as
    | .error e => .error e

/-- A replay reaches a state that satisfies `p`. Decidable for decidable `p`,
so that such a run can be decided. -/
def Reaches (r : Except (Stop φ) σ) (p : σ → Prop) : Prop :=
  match r with
  | .ok s => p s
  | .error _ => False

instance {r : Except (Stop φ) σ} {p : σ → Prop} [DecidablePred p] : Decidable (Reaches r p) :=
  match r with
  | .ok s => inferInstanceAs (Decidable (p s))
  | .error _ => inferInstanceAs (Decidable False)

def Faults (r : Except (Stop φ) σ) (f : φ) : Prop :=
  match r with
  | .error (.fault g) => g = f
  | _ => False

instance {r : Except (Stop φ) σ} {f : φ} [DecidableEq φ] : Decidable (Faults r f) :=
  match r with
  | .ok _ => inferInstanceAs (Decidable False)
  | .error .disabled => inferInstanceAs (Decidable False)
  | .error (.fault g) => inferInstanceAs (Decidable (g = f))

theorem Faults.eq_error {r : Except (Stop φ) σ} {f : φ} (h : Faults r f) :
    r = .error (.fault f) := by
  match r, h with
  | .error (.fault _), rfl => rfl

private theorem run_extend {labels : List ℓ} (h : Run step start moves s)
    (he : exec step s labels = .ok t) :
    ∃ more, Run step start (moves ++ more) t ∧ more.map Move.label = labels := by
  induction labels generalizing moves s with
  | nil =>
      obtain rfl : s = t := by simpa [exec] using he
      exact ⟨[], by simpa using h, rfl⟩
  | cons a as ih =>
      simp only [exec] at he
      split at he
      next u hu =>
        obtain ⟨more, hr, hl⟩ := ih (h.snoc hu) he
        refine ⟨⟨s, a, u⟩ :: more, by simpa using hr, by simp [hl]⟩
      next => cases he

/-- A successful replay is a run with the same labels. -/
theorem run_of_exec {labels : List ℓ} (he : exec step start labels = .ok t) :
    ∃ moves, Run step start moves t ∧ moves.map Move.label = labels := by
  simpa using run_extend (.nil) he

theorem run_of_reaches (step : σ → ℓ → Except (Stop φ) σ) (start : σ) (labels : List ℓ)
    {p : σ → Prop} (h : Reaches (exec step start labels) p) :
    ∃ moves t, Run step start moves t ∧ moves.map Move.label = labels ∧ p t := by
  cases he : exec step start labels with
  | error => simp [he, Reaches] at h
  | ok t =>
      obtain ⟨moves, hr, hl⟩ := run_of_exec he
      exact ⟨moves, t, hr, hl, by simpa [he, Reaches] using h⟩

/-- A step function that is disabled outside a guard, so that a replay also
checks what each move must satisfy. -/
def guarded (guard : σ → ℓ → Prop) [∀ s a, Decidable (guard s a)]
    (step : σ → ℓ → Except (Stop φ) σ) : σ → ℓ → Except (Stop φ) σ := fun s a =>
  if guard s a then step s a else .error .disabled

/-- Its runs are the runs all of whose moves meet the guard. -/
theorem Run.of_guarded {guard : σ → ℓ → Prop} [∀ s a, Decidable (guard s a)]
    (h : Run (guarded guard step) start moves s) :
    Run step start moves s ∧ ∀ m ∈ moves, guard m.pre m.label := by
  induction h with
  | nil => exact ⟨.nil, by simp⟩
  | snoc _ hs ih =>
      simp only [guarded] at hs
      split at hs
      next hguard =>
        refine ⟨ih.1.snoc hs, List.forall_mem_append.mpr ⟨ih.2, ?_⟩⟩
        exact List.forall_mem_singleton.mpr hguard
      next => cases hs

end Transition
