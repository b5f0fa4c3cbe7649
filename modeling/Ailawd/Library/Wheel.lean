import Mathlib.Data.Finset.Lattice.Lemmas

/-!
# A ring of slots

A ring that is full keeps its number of slots: pushing a slot at the back drops the
one at the front. Elements are entered into the back slot, and the front slot is
inspected before it is dropped, so an element of any other slot is safe for a turn.
`Holds (slots.take k)` counts the turns until an element is met.
-/

namespace Wheel

variable {α : Type*}

/-- Enter an element into the back slot, the one that
comes to the front last. -/
def insertBack [DecidableEq α] (slots : List (Finset α)) (a : α) : List (Finset α) :=
  slots.dropLast ++ [insert a (slots.getLastD ∅)]

def insertAllBack [DecidableEq α] (slots : List (Finset α)) (added : Finset α) : List (Finset α) :=
  slots.dropLast ++ [added ∪ slots.getLastD ∅]

/-- Push a slot at the back of a full ring, which
drops the slot at its front. -/
def rotate (slots : List (Finset α)) (slot : Finset α) : List (Finset α) := slots.tail ++ [slot]

def Holds (slots : List (Finset α)) (a : α) : Prop := ∃ slot ∈ slots, a ∈ slot

section Holds

variable {slots back : List (Finset α)} {slot : Finset α} {a : α}

theorem holds_cons : Holds (slot :: slots) a ↔ a ∈ slot ∨ Holds slots a := by
  constructor
  · rintro ⟨x, hx, ha⟩
    obtain rfl | hx := List.mem_cons.mp hx
    · exact .inl ha
    · exact .inr ⟨x, hx, ha⟩
  · rintro (ha | ⟨x, hx, ha⟩)
    · exact ⟨slot, List.mem_cons_self, ha⟩
    · exact ⟨x, List.mem_cons_of_mem slot hx, ha⟩

theorem holds_append : Holds (slots ++ back) a ↔ Holds slots a ∨ Holds back a := by
  constructor
  · rintro ⟨x, hx, ha⟩
    obtain hx | hx := List.mem_append.mp hx
    · exact .inl ⟨x, hx, ha⟩
    · exact .inr ⟨x, hx, ha⟩
  · rintro (⟨x, hx, ha⟩ | ⟨x, hx, ha⟩)
    · exact ⟨x, List.mem_append_left back hx, ha⟩
    · exact ⟨x, List.mem_append_right slots hx, ha⟩

theorem holds_singleton : Holds [slot] a ↔ a ∈ slot := by
  rw [holds_cons]
  constructor
  · rintro (ha | ⟨x, hx, -⟩)
    · exact ha
    · exact absurd hx List.not_mem_nil
  · exact .inl

/-- Where an element is: in the front slot, which the next
turn visits, or behind it. -/
theorem holds_iff : Holds slots a ↔ a ∈ slots.headD ∅ ∨ Holds slots.tail a := by
  cases slots with
  | nil => simp [Holds]
  | cons slot rest => exact holds_cons

theorem length_rotate (h : slots ≠ []) : (rotate slots slot).length = slots.length := by
  have hpos := List.length_pos_iff.mpr h
  rw [rotate, List.length_append, List.length_tail, List.length_singleton]
  omega

theorem holds_rotate : Holds (rotate slots slot) a ↔ Holds slots.tail a ∨ a ∈ slot := by
  rw [rotate, holds_append, holds_singleton]

/-- A turn brings every element that is not at the front one slot closer. This
is the step of every bound on waiting times. -/
theorem holds_take_rotate {k : Nat} (h : Holds (slots.take k) a) (hfront : a ∉ slots.headD ∅) :
    Holds ((rotate slots slot).take (k - 1)) a := by
  cases slots with
  | nil => simp [Holds] at h
  | cons front rest =>
      cases k with
      | zero => simp [Holds] at h
      | succ k =>
          rw [List.take_succ_cons, holds_cons] at h
          rw [rotate, List.tail_cons, Nat.add_sub_cancel, List.take_append, holds_append]
          exact .inl (h.resolve_left hfront)

end Holds

section InsertBack

variable [DecidableEq α] {slots : List (Finset α)} {front : Finset α} {a b : α}

/-- Entering an element adds it and keeps the others. -/
theorem holds_insertBack : Holds (insertBack slots b) a ↔ a = b ∨ Holds slots a := by
  rw [insertBack, holds_append, holds_singleton, Finset.mem_insert]
  obtain rfl | ⟨init, last, rfl⟩ := List.eq_nil_or_concat slots
  · simp [Holds]
  · rw [List.concat_eq_append, List.dropLast_concat, List.getLastD_concat, holds_append,
      holds_singleton]
    exact or_left_comm

theorem insertBack_cons (h : slots ≠ []) :
    insertBack (front :: slots) a = front :: insertBack slots a := by
  rw [insertBack, List.dropLast_cons_of_ne_nil h]
  cases slots with
  | nil => exact absurd rfl h
  | cons slot rest => rfl

/-- Entering an element moves no other one, so waiting times do not depend on
who comes in behind. -/
theorem holds_take_insertBack {k : Nat} (h : Holds (slots.take k) a) :
    Holds ((insertBack slots b).take k) a := by
  obtain rfl | ⟨init, last, rfl⟩ := List.eq_nil_or_concat slots
  · simp [Holds] at h
  · rw [List.concat_eq_append, List.take_append, holds_append] at h
    rw [insertBack, List.concat_eq_append, List.dropLast_concat, List.getLastD_concat,
      List.take_append, holds_append]
    refine h.imp_right ?_
    rintro ⟨slot, hslot, ha⟩
    cases hk : k - init.length with
    | zero => simp [hk] at hslot
    | succ j =>
        obtain rfl : slot = last := by simpa [hk] using hslot
        exact ⟨insert b slot, by simp, Finset.mem_insert_of_mem ha⟩

theorem insertAllBack_empty (h : slots ≠ []) : insertAllBack slots ∅ = slots := by
  obtain rfl | ⟨init, last, rfl⟩ := List.eq_nil_or_concat slots
  · exact absurd rfl h
  · rw [insertAllBack, List.concat_eq_append, List.dropLast_concat, List.getLastD_concat,
      Finset.empty_union]

theorem insertBack_insertAllBack {added : Finset α} :
    insertBack (insertAllBack slots added) a = insertAllBack slots (insert a added) := by
  rw [insertBack, insertAllBack, insertAllBack, List.dropLast_concat, List.getLastD_concat,
    Finset.insert_union]

theorem length_insertBack (h : slots ≠ []) : (insertBack slots a).length = slots.length := by
  have hpos := List.length_pos_iff.mpr h
  rw [insertBack, List.length_append, List.length_dropLast, List.length_singleton]
  omega

end InsertBack

end Wheel
