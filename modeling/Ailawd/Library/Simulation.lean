import Ailawd.Library.Run
import Mathlib.Data.List.Forall2

/-!
# Simulation

`Simulates P Q step step' R` has one obligation: along `R` each step of `step` whose move meets
`P` is matched by a run of `step'`, possibly an empty one, and `Q` relates the move to the moves
of that run. A run of the first system then falls into segments of the second one.
-/

namespace Transition

variable {σ τ ℓ κ φ ψ : Type}

def Simulates (P : Move σ ℓ → Prop) (Q : Move σ ℓ → List (Move τ κ) → Prop)
    (step : σ → ℓ → Except (Stop φ) σ) (step' : τ → κ → Except (Stop ψ) τ)
    (R : σ → τ → Prop) : Prop :=
  ∀ {s l t u}, R s u → P ⟨s, l, t⟩ → step s l = .ok t →
    ∃ segment v, Run step' u segment v ∧ Q ⟨s, l, t⟩ segment ∧ R t v

section Rules

variable {P : Move σ ℓ → Prop} {Q : Move σ ℓ → List (Move τ κ) → Prop}
variable {step : σ → ℓ → Except (Stop φ) σ} {step' : τ → κ → Except (Stop ψ) τ}
variable {R : σ → τ → Prop} {start s : σ} {start' : τ} {moves : List (Move σ ℓ)}

/-- The run rule. Each move of the first run is answered by a segment of the
second one, and the segments together are a run of it. -/
theorem Simulates.run (h : Simulates P Q step step' R) (hr : Run step start moves s)
    (hP : ∀ m ∈ moves, P m) (hstart : R start start') :
    ∃ segments s', Run step' start' segments.flatten s' ∧ List.Forall₂ Q moves segments ∧
      R s s' := by
  induction hr with
  | nil => exact ⟨[], start', .nil, .nil, hstart⟩
  | @snoc moves s l t _ hs ih =>
      obtain ⟨segments, u, hr', hQ, hR⟩ := ih fun m hm => hP m (List.mem_append_left _ hm)
      obtain ⟨segment, v, hsegment, hQ', hR'⟩ := h hR (hP _ (by simp)) hs
      refine ⟨segments ++ [segment], v, ?_, List.rel_append hQ (.cons hQ' .nil), hR'⟩
      rw [List.flatten_append, List.flatten_singleton]
      exact hr'.append hsegment

end Rules

section Segments

variable {moves : List (Move σ ℓ)} {segments : List (List (Move τ κ))}

/-- What every segment has in all its moves. -/
theorem forall_mem_segments {Q : Move τ κ → Prop}
    (h : List.Forall₂ (fun _ segment => ∀ m ∈ segment, Q m) moves segments) :
    ∀ m ∈ segments.flatten, Q m := by
  induction h with
  | nil => simp
  | cons hsegment _ ih =>
      rw [List.flatten_cons]
      exact List.forall_mem_append.mpr ⟨hsegment, ih⟩

/-- The labels of the second run, when each move says
which ones it stands for. -/
theorem map_label_segments {f : Move σ ℓ → List κ}
    (h : List.Forall₂ (fun m segment => segment.map Move.label = f m) moves segments) :
    segments.flatten.map Move.label = moves.flatMap f := by
  induction h with
  | nil => rfl
  | cons hsegment _ ih =>
      rw [List.flatten_cons, List.map_append, hsegment, ih, List.flatMap_cons]

end Segments

end Transition
