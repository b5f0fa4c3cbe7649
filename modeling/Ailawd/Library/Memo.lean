import Ailawd.Library.Run
import Mathlib.Logic.Function.Basic

/-!
# Memoisation

A table in front of a function keeps what has been asked, or the part of it that `keep` says.
Looking a key up and keeping an answer may both fail; then the function is asked again. If the
answers are those of one function and lose nothing when they are kept, nobody can tell them from
the function's own, and while nothing fails it is asked once for each key.
-/

namespace Memo

open Transition

/-- What a request comes to: nothing, an answer from the table, or one that the
function was asked for, after the table was `looked` up and before it `kept`
the answer or did not. -/
inductive Request (κ ν : Type) where
  | nothing
  | hit (key : κ) (answer : ν)
  | asked (key : κ) (answer : ν) (looked kept : Bool)
  deriving DecidableEq

variable {κ ν : Type}

def Request.answer? : Request κ ν → Option (κ × ν)
  | .nothing => none
  | .hit key answer => some (key, answer)
  | .asked key answer _ _ => some (key, answer)

def Request.asks? : Request κ ν → Option κ
  | .asked key _ _ _ => some key
  | _ => none

def empty : κ → Option ν := fun _ => none

variable [DecidableEq κ] [DecidableEq ν] (keep : ν → ν)

def step (table : κ → Option ν) : Request κ ν → Except (Stop Empty) (κ → Option ν)
  | .nothing => .ok table
  | .hit key answer => if table key = some answer then .ok table else .error .disabled
  | .asked key answer looked kept =>
    if looked = true ∧ table key ≠ none then .error .disabled
    else .ok (if kept then Function.update table key (some (keep answer)) else table)

section Rules

variable {keep} {f : κ → ν} {start s t : κ → Option ν} {r : Request κ ν} {key : κ} {answer : ν}
variable {looked kept : Bool} {moves : List (Move (κ → Option ν) (Request κ ν))}

theorem hit_eq_ok (h : step keep s (.hit key answer) = .ok t) : s key = some answer ∧ t = s := by
  simp only [step] at h
  split at h
  next hkey => exact ⟨hkey, (Except.ok.inj h).symm⟩
  · cases h

theorem asked_eq_ok (h : step keep s (.asked key answer looked kept) = .ok t) :
    (looked = true → s key = none) ∧
      t = if kept then Function.update s key (some (keep answer)) else s := by
  simp only [step] at h
  split at h
  · cases h
  next hmiss =>
    refine ⟨fun hlooked => ?_, (Except.ok.inj h).symm⟩
    by_contra hsome
    exact hmiss ⟨hlooked, hsome⟩

/-- What a table holds stays there, perhaps with another value: an entry is
written over, and never removed. -/
theorem step_ne_none (h : step keep s r = .ok t) (hkey : s key ≠ none) : t key ≠ none := by
  cases r with
  | nothing =>
      obtain rfl := Except.ok.inj h
      exact hkey
  | hit _ _ =>
      obtain ⟨-, rfl⟩ := hit_eq_ok h
      exact hkey
  | asked key' answer looked kept =>
      obtain ⟨-, rfl⟩ := asked_eq_ok h
      split
      · by_cases hk : key = key'
        · rw [hk, Function.update_self]
          exact Option.some_ne_none _
        · rwa [Function.update_of_ne hk]
      · exact hkey

/-- The step lemma of a table that holds values of the function. What is kept
of an answer must be the answer. -/
theorem step_sound (hf : ∀ key, keep (f key) = f key) (h : step keep s r = .ok t)
    (hr : ∀ key answer looked kept, r = .asked key answer looked kept → answer = f key)
    (hs : ∀ key answer, s key = some answer → answer = f key) :
    (∀ key answer, t key = some answer → answer = f key) ∧
      ∀ key answer, r.answer? = some (key, answer) → answer = f key := by
  cases r with
  | nothing =>
      obtain rfl := Except.ok.inj h
      exact ⟨hs, nofun⟩
  | hit key answer =>
      obtain ⟨hkey, rfl⟩ := hit_eq_ok h
      refine ⟨hs, fun key' answer' hanswer => ?_⟩
      cases hanswer
      exact hs key answer hkey
  | asked key answer looked kept =>
      obtain ⟨-, rfl⟩ := asked_eq_ok h
      obtain rfl := hr key answer looked kept rfl
      refine ⟨fun key' answer' hkey => ?_, fun key' answer' hanswer => ?_⟩
      · split at hkey
        · by_cases hk : key' = key
          · rw [hk, Function.update_self, hf] at hkey
            rw [hk, ← Option.some.inj hkey]
          · rw [Function.update_of_ne hk] at hkey
            exact hs key' answer' hkey
        · exact hs key' answer' hkey
      · cases hanswer
        rfl

/-- Every answer is the function's, whatever is lost on the way to the table
and back. Induction on the run. -/
theorem answers_sound (hf : ∀ key, keep (f key) = f key) (h : Run (step keep) empty moves t)
    (hasked : ∀ r ∈ moves.map Move.label, ∀ key answer looked kept,
      r = .asked key answer looked kept → answer = f key) :
    ∀ r ∈ moves.map Move.label, ∀ key answer, r.answer? = some (key, answer) → answer = f key := by
  suffices (∀ key answer, t key = some answer → answer = f key) ∧
    ∀ r ∈ moves.map Move.label, ∀ key answer, r.answer? = some (key, answer) → answer = f key from
      this.2
  induction h with
  | nil => exact ⟨nofun, nofun⟩
  | snoc _ hstep ih =>
      rw [List.map_append] at hasked ⊢
      obtain ⟨htable, hbefore⟩ := ih fun r hr => hasked r (List.mem_append_left _ hr)
      obtain ⟨htable', hanswer⟩ := step_sound hf hstep (hasked _ (by simp)) htable
      refine ⟨htable', List.forall_mem_append.mpr ⟨hbefore, ?_⟩⟩
      exact List.forall_mem_singleton.mpr hanswer

/-- The table has what was asked, and is not asked about what it has, as long
as nothing is lost. -/
theorem step_asks (h : step keep s r = .ok t) (hkey : r.asks? = some key)
    (hall : ∀ key answer looked kept, r = .asked key answer looked kept →
      looked = true ∧ kept = true) : s key = none ∧ t key ≠ none := by
  cases r with
  | nothing => cases hkey
  | hit _ _ => cases hkey
  | asked key' answer looked kept =>
      obtain rfl := Option.some.inj hkey
      obtain ⟨rfl, rfl⟩ := hall _ answer looked kept rfl
      obtain ⟨hnone, rfl⟩ := asked_eq_ok h
      refine ⟨hnone rfl, ?_⟩
      rw [if_pos rfl, Function.update_self]
      exact Option.some_ne_none _

/-- While nothing fails the function is asked once for each key: what it was
asked stays in the table. -/
theorem asked_once (h : Run (step keep) start moves t)
    (hall : ∀ r ∈ moves.map Move.label, ∀ key answer looked kept,
      r = .asked key answer looked kept → looked = true ∧ kept = true) :
    (moves.map Move.label).Pairwise fun r r' => ∀ key, r.asks? = some key →
      r'.asks? ≠ some key := by
  suffices (∀ r ∈ moves.map Move.label, ∀ key, r.asks? = some key → t key ≠ none) ∧
    (moves.map Move.label).Pairwise fun r r' => ∀ key, r.asks? = some key →
      r'.asks? ≠ some key from this.2
  induction h with
  | nil => exact ⟨nofun, .nil⟩
  | @snoc moves s r t _ hstep ih =>
      rw [List.map_append] at hall ⊢
      obtain ⟨hold, hpairs⟩ := ih fun r hr => hall r (List.mem_append_left _ hr)
      have hlast := hall r (List.mem_append_right _ (List.mem_singleton_self _))
      refine ⟨List.forall_mem_append.mpr ⟨fun r' hr key hkey => ?_,
          List.forall_mem_singleton.mpr fun key hkey => (step_asks hstep hkey hlast).2⟩,
        List.pairwise_append.mpr ⟨hpairs, List.pairwise_singleton _ _, ?_⟩⟩
      · exact step_ne_none hstep (hold r' hr key hkey)
      · intro r' hr a ha key hkey hagain
        obtain rfl := List.mem_singleton.mp ha
        exact hold r' hr key hkey (step_asks hstep hagain hlast).1

end Rules

end Memo
