import Mathlib.Data.List.Infix

/-!
# Streams of code words

A decoder takes one word off a stream, or waits for more of it. `Delimited` says that it finds
each word whatever follows, and that more input never changes what it has found. Then a stream
of words is read back word by word, and what has come in of a further word stays unread.
-/

namespace CodeWords

variable {α β γ : Type}

/-- Words are read off the front of a stream until one is missing; the values
come in their order, and `rest` is what is left. -/
inductive Reads (dec : List β → Option (γ × List β)) : List β → List γ → List β → Prop where
  | done {stream} : dec stream = none → Reads dec stream [] stream
  | word {stream x more xs rest} : dec stream = some (x, more) → Reads dec more xs rest →
      Reads dec stream (x :: xs) rest

structure Delimited (P : α → Prop) (enc : α → List β) (val : α → γ)
    (dec : List β → Option (γ × List β)) : Prop where
  empty : dec [] = none
  word : ∀ a, P a → ∀ rest, dec (enc a ++ rest) = some (val a, rest)
  more : ∀ {stream x rest}, dec stream = some (x, rest) → ∀ more,
    dec (stream ++ more) = some (x, rest ++ more)

section Rules

variable {P : α → Prop} {enc : α → List β} {val : α → γ} {dec : List β → Option (γ × List β)}
variable {stream rest rest' : List β} {xs ys : List γ} {as : List α} {a : α}

/-- A stream has one reading. Induction on the one, with the next word
decided by the decoder. -/
theorem Reads.unique (h : Reads dec stream xs rest) (h' : Reads dec stream ys rest') :
    ys = xs ∧ rest' = rest := by
  induction h generalizing ys with
  | done hnone =>
      cases h' with
      | done _ => exact ⟨rfl, rfl⟩
      | word hsome _ => cases hnone.symm.trans hsome
  | word hsome _ ih =>
      cases h' with
      | done hnone => cases hnone.symm.trans hsome
      | word hsome' h' =>
          obtain ⟨rfl, rfl⟩ := Prod.mk.inj (Option.some.inj (hsome.symm.trans hsome'))
          obtain ⟨rfl, rfl⟩ := ih h'
          exact ⟨rfl, rfl⟩

namespace Delimited

variable (h : Delimited P enc val dec)
include h

/-- A part of a word is not read, so a reader waits for the rest of it. -/
theorem eq_none_of_prefix (ha : P a) (hpre : stream <+: enc a) (hne : stream ≠ enc a) :
    dec stream = none := by
  obtain ⟨tail, htail⟩ := hpre
  cases hdec : dec stream with
  | none => rfl
  | some found =>
      obtain ⟨x, rest⟩ := found
      have hword := h.word a ha []
      rw [List.append_nil, ← htail, h.more hdec tail] at hword
      -- the word would end before its own end
      obtain ⟨-, hnil⟩ := Prod.mk.inj (Option.some.inj hword)
      obtain ⟨-, rfl⟩ := List.append_eq_nil_iff.mp hnil
      exact absurd ((List.append_nil stream).symm.trans htail) hne

/-- Words are read back, up to where the decoder waits. What is left over is
not the start of a readable word. -/
theorem reads_append (has : ∀ a ∈ as, P a) (hrest : dec rest = none) :
    Reads dec (as.flatMap enc ++ rest) (as.map val) rest := by
  induction as with
  | nil => exact .done hrest
  | cons a as ih =>
      obtain ⟨ha, has⟩ := List.forall_mem_cons.mp has
      rw [List.flatMap_cons, List.append_assoc, List.map_cons]
      exact .word (h.word a ha _) (ih has)

theorem reads (has : ∀ a ∈ as, P a) : Reads dec (as.flatMap enc) (as.map val) [] := by
  have hread := h.reads_append has h.empty
  rwa [List.append_nil] at hread

end Delimited

end Rules

end CodeWords
