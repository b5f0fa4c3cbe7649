import Ailawd.Library.Run
import Mathlib.Logic.Function.Basic

/-!
# Threads that share data under one lock

A `Monitor` is where each of any number of threads is, who holds the lock, and the data
they share. One step of one thread is a `Turn`: it goes on, takes the lock, which blocks
while another thread holds it, or gives it back. What a turn does depends only on the place
of its thread, on the data and on an input that carries all nondeterminism.

An `Outline` annotates the places. `Outline.Sound` has only obligations about single turns:
each establishes the assertion of the place it goes to, and a turn inside the critical
section keeps the assertions outside of it. The run lemma then gives the assertions of all
threads in every interleaving.
-/

namespace Transition

inductive Turn (π σ : Type) where
  | goto (place : π) (data : σ)
  | acquire (place : π)
  | release (place : π)

structure Monitor (π σ : Type) where
  pc : Nat → π
  lock : Option Nat
  data : σ

namespace Monitor

variable {π σ ι φ : Type}

/-- One turn of thread `i`. A turn that takes the lock is not
possible while a thread has it. -/
def step (turn : σ → π → ι → Except (Stop φ) (Turn π σ)) (m : Monitor π σ) :
    Nat × ι → Except (Stop φ) (Monitor π σ)
  | (i, a) =>
    match turn m.data (m.pc i) a with
    | .error e => .error e
    | .ok (.goto place data) => .ok { m with pc := Function.update m.pc i place, data := data }
    | .ok (.acquire place) =>
      if m.lock = none then .ok { m with pc := Function.update m.pc i place, lock := some i }
      else .error .disabled
    | .ok (.release place) =>
      .ok { m with pc := Function.update m.pc i place, lock := none }

/-- What holds where: `inside` is the critical section, `free` holds of the
data while the lock is free, and `assertion` while a thread is at a place. -/
structure Outline (π σ : Type) where
  inside : π → Bool
  free : σ → Prop
  assertion : π → σ → Prop

structure Outline.Holds (o : Outline π σ) (m : Monitor π σ) : Prop where
  exclusive : ∀ i, o.inside (m.pc i) = true ↔ m.lock = some i
  free : m.lock = none → o.free m.data
  assertion : ∀ i, o.assertion (m.pc i) m.data

/-- A turn from a place agrees with the outline: it stays inside or outside and
keeps what is asserted outside, or takes the lock, or gives it back with the
data in order. -/
def Outline.Accepts (o : Outline π σ) (p : π) (d : σ) : Except (Stop φ) (Turn π σ) → Prop
  | .ok (.goto q d') => o.inside q = o.inside p ∧ o.assertion q d' ∧ (o.inside p = false → d' = d) ∧
      ∀ r, o.inside r = false → o.assertion r d → o.assertion r d'
  | .ok (.acquire q) => o.inside q = true ∧ (o.free d → o.assertion q d)
  | .ok (.release q) => o.inside p = true ∧ o.inside q = false ∧ o.free d ∧ o.assertion q d
  | .error .disabled => True
  | .error (.fault _) => False

/-- The obligations of an outline, for the inputs that satisfy `P`: one for
each place, about one turn of one thread, and none about interleavings. -/
def Outline.Sound (o : Outline π σ) (turn : σ → π → ι → Except (Stop φ) (Turn π σ))
    (P : ι → Prop) : Prop :=
  ∀ {d p a}, o.assertion p d → P a → o.Accepts p d (turn d p a)

section Rules

variable {o : Outline π σ} {turn : σ → π → ι → Except (Stop φ) (Turn π σ)} {P : ι → Prop}
variable {m m' : Monitor π σ} {i : Nat} {a : ι}

theorem step_cases (hs : step turn m (i, a) = .ok m') :
    (∃ q d, turn m.data (m.pc i) a = .ok (.goto q d) ∧
      m' = { m with pc := Function.update m.pc i q, data := d }) ∨
    (∃ q, turn m.data (m.pc i) a = .ok (.acquire q) ∧ m.lock = none ∧
      m' = { m with pc := Function.update m.pc i q, lock := some i }) ∨
    ∃ q, turn m.data (m.pc i) a = .ok (.release q) ∧
      m' = { m with pc := Function.update m.pc i q, lock := none } := by
  simp only [step] at hs
  split at hs
  next => cases hs
  next q d hturn => exact .inl ⟨q, d, hturn, (Except.ok.inj hs).symm⟩
  next q hturn =>
    split at hs
    next hfree => exact .inr (.inl ⟨q, hturn, hfree, (Except.ok.inj hs).symm⟩)
    next => cases hs
  next q hturn => exact .inr (.inr ⟨q, hturn, (Except.ok.inj hs).symm⟩)

private theorem forall_update {C : Nat → π → Prop} {pc : Nat → π} {q : π} (hq : C i q)
    (hrest : ∀ j, j ≠ i → C j (pc j)) : ∀ j, C j (Function.update pc i q j) := by
  intro j
  by_cases hj : j = i
  · subst hj
    rw [Function.update_self]
    exact hq
  · rw [Function.update_of_ne hj]
    exact hrest j hj

/-- At most the holder of the lock is inside, so what is asserted inside is
nobody else's to break. -/
theorem Outline.Holds.outside (h : o.Holds m) (hi : o.inside (m.pc i) = true) {j : Nat}
    (hj : j ≠ i) : o.inside (m.pc j) = false := by
  rw [← Bool.not_eq_true, h.exclusive j, (h.exclusive i).mp hi, Option.some_inj]
  exact hj.symm

namespace Outline.Sound

variable (hsound : o.Sound turn P)
include hsound

theorem holds_goto {q : π} {d : σ} (h : o.Holds m) (ha : P a)
    (hturn : turn m.data (m.pc i) a = .ok (.goto q d)) :
    o.Holds { m with pc := Function.update m.pc i q, data := d } := by
  have haccepts := hsound (h.assertion i) ha
  rw [hturn] at haccepts
  obtain ⟨hinside, hq, hsame, hstable⟩ := haccepts
  refine ⟨?_, ?_, ?_⟩
  · apply forall_update (C := fun j p => o.inside p = true ↔ m.lock = some j)
    · rw [hinside]
      exact h.exclusive i
    · intro j _
      exact h.exclusive j
  · intro hfree
    have hout : o.inside (m.pc i) = false := by
      rw [← Bool.not_eq_true, h.exclusive i, show m.lock = none from hfree]
      simp
    rw [hsame hout]
    exact h.free hfree
  · apply forall_update (C := fun _ p => o.assertion p d) hq
    intro j hj
    cases hi : o.inside (m.pc i) with
    | true => exact hstable _ (h.outside hi hj) (h.assertion j)
    | false =>
        rw [hsame hi]
        exact h.assertion j

theorem holds_acquire {q : π} (h : o.Holds m) (ha : P a) (hfree : m.lock = none)
    (hturn : turn m.data (m.pc i) a = .ok (.acquire q)) :
    o.Holds { m with pc := Function.update m.pc i q, lock := some i } := by
  have haccepts := hsound (h.assertion i) ha
  rw [hturn] at haccepts
  obtain ⟨hinside, hq⟩ := haccepts
  refine ⟨?_, ?_, ?_⟩
  · apply forall_update (C := fun j p => o.inside p = true ↔ some i = some j)
    · simp [hinside]
    · intro j hj
      rw [h.exclusive j, hfree]
      simp [hj.symm]
  · intro hnone
    cases hnone
  · exact forall_update (C := fun _ p => o.assertion p m.data) (hq (h.free hfree))
      fun j _ => h.assertion j

theorem holds_release {q : π} (h : o.Holds m) (ha : P a)
    (hturn : turn m.data (m.pc i) a = .ok (.release q)) :
    o.Holds { m with pc := Function.update m.pc i q, lock := none } := by
  have haccepts := hsound (h.assertion i) ha
  rw [hturn] at haccepts
  obtain ⟨hinside, hout, hfree, hq⟩ := haccepts
  refine ⟨?_, fun _ => hfree, ?_⟩
  · apply forall_update (C := fun j p => o.inside p = true ↔ none = some j)
    · simp [hout]
    · intro j hj
      simp [h.outside hinside hj]
  · exact forall_update (C := fun _ p => o.assertion p m.data) hq fun j _ => h.assertion j

/-- The step lemma. The thread that moves is at its next place, and the
assertions of the others are kept. -/
theorem holds_step (h : o.Holds m) (ha : P a) (hs : step turn m (i, a) = .ok m') :
    o.Holds m' := by
  obtain ⟨q, d, hturn, rfl⟩ | ⟨q, hturn, hfree, rfl⟩ | ⟨q, hturn, rfl⟩ := step_cases hs
  · exact hsound.holds_goto h ha hturn
  · exact hsound.holds_acquire h ha hfree hturn
  · exact hsound.holds_release h ha hturn

/-- The run lemma: the outline holds in every state, for any number
of threads in any order. -/
theorem holds_run {start s : Monitor π σ} {moves : List (Move (Monitor π σ) (Nat × ι))}
    (hr : Run (step turn) start moves s) (hinputs : ∀ m ∈ moves, P m.label.2)
    (init : o.Holds start) : ∀ u, Visits moves s u → o.Holds u := by
  apply hr.invariant_of_visits (P := fun m => P m.label.2) hinputs init
  rintro s ⟨i, a⟩ t hs ha hstep
  exact hsound.holds_step hs ha hstep

/-- No turn faults where the outline holds. A fault would break
its obligation at once. -/
theorem step_survives {f : φ} (h : o.Holds m) (ha : P a) :
    step turn m (i, a) ≠ .error (.fault f) := by
  intro hs
  have haccepts := hsound (h.assertion i) ha
  simp only [step] at hs
  split at hs
  next e he =>
    obtain rfl := Except.error.inj hs
    rw [he] at haccepts
    exact haccepts
  next => cases hs
  next => split at hs <;> cases hs
  next => cases hs

end Outline.Sound

end Rules

end Monitor

end Transition
