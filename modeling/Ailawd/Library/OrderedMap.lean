import Mathlib.Data.List.Forall2

/-!
# Maps ordered by key, searched in order

`OrderedMap` has the behaviour of `std::map`: its entries are sorted by key, no
key occurs twice, and `insert` leaves an existing key alone. The order matters
because a search by a predicate coarser than equality returns the first match.

`SameExcept key` relates two maps that have the same keys and agree everywhere
but at one of them. It survives insertion into both and is invisible to every
search that cannot match the exceptional key.

`findFirst_insertAll` says what a search finds after a whole list of insertions: of
those that match, the one with the least key, and of equal keys the earliest.
-/

namespace OrderedMap

variable {α β : Type} [LT α] [LE α] [DecidableEq α] [DecidableLT α]
variable [Std.IsLinearOrder α] [Std.LawfulOrderLT α]

def insertEntry (key : α) (value : β) : List (α × β) → List (α × β)
  | [] => [(key, value)]
  | entry :: rest =>
    if key = entry.1 then entry :: rest
    else if key < entry.1 then (key, value) :: entry :: rest
    else entry :: insertEntry key value rest

omit [LE α] [Std.IsLinearOrder α] [Std.LawfulOrderLT α] in
theorem mem_insertEntry {key : α} {value : β} {entries : List (α × β)} {e : α × β}
    (h : e ∈ insertEntry key value entries) : e = (key, value) ∨ e ∈ entries := by
  induction entries with
  | nil => exact Or.inl (by simpa [insertEntry] using h)
  | cons entry rest ih =>
      simp only [insertEntry] at h
      split at h
      · exact Or.inr h
      · split at h
        · exact List.mem_cons.mp h
        · rcases List.mem_cons.mp h with rfl | h
          · exact Or.inr (by simp)
          · exact (ih h).imp_right fun hm => List.mem_cons_of_mem _ hm

theorem insertEntry_sorted (key : α) (value : β) {entries : List (α × β)}
    (h : entries.Pairwise fun a b => a.1 < b.1) :
    (insertEntry key value entries).Pairwise fun a b => a.1 < b.1 := by
  induction entries with
  | nil => simp [insertEntry]
  | cons entry rest ih =>
      obtain ⟨hhead, hrest⟩ := List.pairwise_cons.mp h
      simp only [insertEntry]
      split
      · exact h
      next hne =>
        split
        next hlt =>
          refine List.pairwise_cons.mpr ⟨fun e he => ?_, h⟩
          rcases List.mem_cons.mp he with rfl | he
          · exact hlt
          · exact Std.lt_trans hlt (hhead e he)
        next hnlt =>
          refine List.pairwise_cons.mpr ⟨fun e he => ?_, ih hrest⟩
          rcases mem_insertEntry he with rfl | he
          · exact Std.lt_of_le_of_ne (Std.not_lt.mp hnlt) (Ne.symm hne)
          · exact hhead e he

end OrderedMap

/-- A finite map with its entries in strict key order, like a `std::map`; the
order is a field, so every map has it. -/
structure OrderedMap (α β : Type) [LT α] where
  entries : List (α × β)
  sorted : entries.Pairwise fun a b => a.1 < b.1

namespace OrderedMap

variable {α β : Type} [LT α] [LE α] [DecidableEq α] [DecidableLT α]
variable [Std.IsLinearOrder α] [Std.LawfulOrderLT α]

def empty : OrderedMap α β := ⟨[], .nil⟩

def insert (m : OrderedMap α β) (key : α) (value : β) : OrderedMap α β :=
  ⟨insertEntry key value m.entries, insertEntry_sorted key value m.sorted⟩

/-- The first entry, in key order, whose key satisfies `p`. This is a search
from `begin()`, not a lookup. -/
def findFirst (m : OrderedMap α β) (p : α → Bool) : Option (α × β) :=
  m.entries.find? fun e => p e.1

/-- Equal keys, and equal values at every key but the given one. Two maps are
so related when one differs in what was written at that key. -/
def SameExcept (key : α) (m m' : OrderedMap α β) : Prop :=
  List.Forall₂ (fun e e' => e.1 = e'.1 ∧ (e.1 ≠ key → e.2 = e'.2)) m.entries m'.entries

section SameExcept

variable {m m' : OrderedMap α β} {key : α}

theorem SameExcept.insert_self (key : α) (value value' : β) :
    SameExcept key ((empty : OrderedMap α β).insert key value) (empty.insert key value') :=
  List.Forall₂.cons ⟨rfl, fun h => absurd rfl h⟩ List.Forall₂.nil

theorem SameExcept.insert (h : SameExcept key m m') (k : α) (value : β) :
    SameExcept key (m.insert k value) (m'.insert k value) := by
  change List.Forall₂ _ (insertEntry k value m.entries) (insertEntry k value m'.entries)
  simp only [SameExcept] at h
  generalize m.entries = es, m'.entries = es' at h
  induction h with
  | nil => exact .cons ⟨rfl, fun _ => rfl⟩ .nil
  | @cons e e' rest rest' he hrest ih =>
      simp only [insertEntry, ← he.1]
      split
      · exact .cons he hrest
      · split
        · exact .cons ⟨rfl, fun _ => rfl⟩ (.cons he hrest)
        · exact .cons he ih

omit [LE α] [DecidableEq α] [DecidableLT α] [Std.IsLinearOrder α] [Std.LawfulOrderLT α] in
/-- A search that rejects the exceptional key finds the same value. -/
theorem SameExcept.findFirst_eq (h : SameExcept key m m') {p : α → Bool} (hp : p key = false) :
    m.findFirst p = m'.findFirst p := by
  simp only [SameExcept] at h
  simp only [findFirst]
  generalize m.entries = es, m'.entries = es' at h
  induction h with
  | nil => rfl
  | @cons e e' rest rest' he _ ih =>
      simp only [List.find?_cons, ← he.1]
      by_cases hpe : p e.1 = true
      · have hk : e.1 ≠ key := fun hk => by simp [hk, hp] at hpe
        simp only [hpe]
        exact congrArg some (Prod.ext he.1 (he.2 hk))
      · simp only [Bool.eq_false_iff.mpr hpe]
        exact ih

end SameExcept

def insertAll (m : OrderedMap α β) (pairs : List (α × β)) : OrderedMap α β :=
  pairs.foldl (fun m e => m.insert e.1 e.2) m

/-- Of two pairs, the one with the smaller key, or the first. -/
def leadingOf (found : Option (α × β)) (e : α × β) : Option (α × β) :=
  match found with
  | none => some e
  | some l => if e.1 < l.1 then some e else some l

/-- The pair with the least key, the first one of several: what a search from
`begin()` meets when the pairs were inserted in this order. -/
def leading (pairs : List (α × β)) : Option (α × β) := pairs.foldl leadingOf none

section Leading

variable {m : OrderedMap α β} {p : α → Bool} {pairs : List (α × β)}

theorem findFirst_insert (m : OrderedMap α β) (p : α → Bool) (key : α) (value : β) :
    (m.insert key value).findFirst p =
      if p key then leadingOf (m.findFirst p) (key, value) else m.findFirst p := by
  change (insertEntry key value m.entries).find? _ = if p key then leadingOf (m.entries.find? _) _
    else m.entries.find? _
  have hsorted := m.sorted
  generalize m.entries = es at hsorted ⊢
  induction es with
  | nil => cases hp : p key <;> simp [insertEntry, leadingOf, hp]
  | cons entry rest ih =>
      obtain ⟨hhead, hrest⟩ := List.pairwise_cons.mp hsorted
      have ih := ih hrest
      simp only [insertEntry]
      split
      next heq =>
        subst heq
        cases hp : p entry.1 <;> simp [leadingOf, hp, Std.lt_irrefl]
      next hne =>
        split
        next hlt =>
          cases hp : p key with
          | false => simp [hp]
          | true =>
              simp only [List.find?_cons, hp, if_true]
              rw [← List.find?_cons (p := fun e : α × β => p e.1)]
              cases hf : (entry :: rest).find? fun e => p e.1 with
              | none => rfl
              | some l =>
                  have hl : key < l.1 := by
                    rcases List.mem_cons.mp (List.mem_of_find?_eq_some hf) with rfl | hmem
                    · exact hlt
                    · exact Std.lt_trans hlt (hhead l hmem)
                  simp [leadingOf, hl]
        next hnlt =>
          cases hpe : p entry.1 with
          | false =>
              simp only [List.find?_cons, hpe]
              exact ih
          | true => simp [hpe, leadingOf, hnlt]

theorem findFirst_insertAll (m : OrderedMap α β) (p : α → Bool) (pairs : List (α × β)) :
    (m.insertAll pairs).findFirst p =
      (pairs.filter fun e => p e.1).foldl leadingOf (m.findFirst p) := by
  induction pairs generalizing m with
  | nil => rfl
  | cons e rest ih =>
      change ((m.insert e.1 e.2).insertAll rest).findFirst p = _
      rw [ih, findFirst_insert]
      cases hp : p e.1 <;> simp [hp]

omit [DecidableEq α] in
private theorem leadingOf_leadingOf (found : Option (α × β)) (e l : α × β) :
    leadingOf (leadingOf found e) l = (leadingOf (some e) l).elim found (leadingOf found) := by
  cases found with
  | none => simp only [leadingOf]; split <;> rfl
  | some f =>
      by_cases hef : e.1 < f.1
      · by_cases hle : l.1 < e.1
        · simp [leadingOf, hef, hle, Std.lt_trans hle hef]
        · simp [leadingOf, hef, hle]
      · by_cases hle : l.1 < e.1
        · simp [leadingOf, hef, hle]
        · have hlf : ¬ l.1 < f.1 :=
            Std.not_lt.mpr (Std.le_trans (Std.not_lt.mp hef) (Std.not_lt.mp hle))
          simp [leadingOf, hef, hle, hlf]

omit [DecidableEq α] in
private theorem foldl_leadingOf (found : Option (α × β)) (pairs : List (α × β)) :
    pairs.foldl leadingOf found = (leading pairs).elim found (leadingOf found) := by
  induction pairs generalizing found with
  | nil => rfl
  | cons e rest ih =>
      simp only [leading, List.foldl_cons] at ih ⊢
      rw [ih, ih (leadingOf none e)]
      cases rest.foldl leadingOf none with
      | none => rfl
      | some l => exact leadingOf_leadingOf found e l

omit [DecidableEq α] in
/-- The leading pair of two lists, of which the first was inserted first. A
later pair must have a smaller key to come before it. -/
theorem leading_append (pairs more : List (α × β)) :
    leading (pairs ++ more) = (leading more).elim (leading pairs) (leadingOf (leading pairs)) := by
  rw [leading, List.foldl_append, foldl_leadingOf]
  rfl

omit [DecidableEq α] in
private theorem foldl_leadingOf_some {l e : α × β}
    (h : pairs.foldl leadingOf (some l) = some e) : e = l ∨ (e ∈ pairs ∧ e.1 < l.1) := by
  induction pairs generalizing l with
  | nil => exact .inl (Option.some.inj h).symm
  | cons f rest ih =>
      simp only [List.foldl_cons, leadingOf] at h
      split at h
      next hlt =>
        obtain rfl | ⟨hmem, hlt'⟩ := ih h
        · exact .inr ⟨List.mem_cons_self, hlt⟩
        · exact .inr ⟨List.mem_cons_of_mem _ hmem, Std.lt_trans hlt' hlt⟩
      · exact (ih h).imp_right fun ⟨hmem, hlt⟩ => ⟨List.mem_cons_of_mem _ hmem, hlt⟩

omit [DecidableEq α] in
/-- Only a pair with a smaller key comes before the first one. -/
theorem leading_cons {l e : α × β} (h : leading (l :: pairs) = some e) :
    e = l ∨ (e ∈ pairs ∧ e.1 < l.1) :=
  foldl_leadingOf_some h

omit [DecidableEq α] in
theorem exists_leading_cons (l : α × β) (pairs : List (α × β)) :
    ∃ e, leading (l :: pairs) = some e := by
  rw [leading, List.foldl_cons, foldl_leadingOf]
  cases leading pairs with
  | none => exact ⟨l, rfl⟩
  | some e =>
      simp only [Option.elim_some, leadingOf]
      split
      · exact ⟨e, rfl⟩
      · exact ⟨l, rfl⟩

omit [DecidableEq α] in
/-- A pair with a key below all others leads. -/
theorem leading_of_lt {front back : List (α × β)} {e : α × β}
    (h : ∀ l ∈ front ++ back, e.1 < l.1) : leading (front ++ e :: back) = some e := by
  have hback : leading (e :: back) = some e := by
    obtain ⟨l, hl⟩ := exists_leading_cons e back
    obtain rfl | ⟨hmem, hlt⟩ := leading_cons hl
    · exact hl
    · exact absurd (Std.lt_trans hlt (h l (List.mem_append_right _ hmem))) Std.lt_irrefl
  rw [leading_append, hback, Option.elim_some]
  cases front with
  | nil => rfl
  | cons f front =>
      obtain ⟨l, hl⟩ := exists_leading_cons f front
      have hmem : l ∈ f :: front := by
        obtain rfl | ⟨hmem, -⟩ := leading_cons hl
        · exact List.mem_cons_self
        · exact List.mem_cons_of_mem _ hmem
      rw [hl, leadingOf, if_pos (h l (List.mem_append_left _ hmem))]

end Leading

end OrderedMap
