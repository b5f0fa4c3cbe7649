import Mathlib.Data.List.TakeWhile
import Ailawd.Library.ByteString

/-!
# Letter case, white space and lines of byte strings

Two strings are equal up to letter case exactly if their upper-case forms are equal, so a
comparison without case can be carried along any equality of those forms. Changing case only
moves letters: delimiters and white space stay where they are. Of all strings that are equal
up to case the lower-case form is the last in the order of bytes, and the upper-case form
comes strictly before it if there is a letter at all.

`trim` removes white space around a string and nothing else, and `unlines` is the inverse
of `lines` on lists of lines.
-/

namespace ByteString

/-- A decidable property of bytes can be checked byte by byte. The
tables below are such checks. -/
theorem forall_byte {P : UInt8 → Prop} (h : ∀ n : Fin 256, P (UInt8.ofFin n)) (b : UInt8) :
    P b := h b.toFin

def toLower (b : UInt8) : UInt8 := if 65 ≤ b && b ≤ 90 then b + 32 else b

section Bytes

variable {b c : UInt8}

private theorem case_table : ∀ b, (toUpper (toUpper b) = toUpper b ∧
    toUpper (toLower b) = toUpper b) ∧ toLower (toUpper b) = toLower b ∧
    toLower (toLower b) = toLower b := forall_byte (by decide +kernel)

/-- What a change of case does to letters and to other bytes: white space stays
white space, and only letters are moved. -/
private theorem class_table : ∀ b, (isSpace (toUpper b) = isSpace b ∧
    isSpace (toLower b) = isSpace b ∧ isAlpha (toUpper b) = isAlpha b ∧ b ≤ toLower b) ∧
    (isAlpha b = true → toUpper b < toLower b) ∧
    (isAlpha b = false → toUpper b = b ∧ toLower b = b) := forall_byte (by decide +kernel)

theorem toUpper_toUpper (b : UInt8) : toUpper (toUpper b) = toUpper b := (case_table b).1.1

theorem toUpper_toLower (b : UInt8) : toUpper (toLower b) = toUpper b := (case_table b).1.2

theorem toLower_toUpper (b : UInt8) : toLower (toUpper b) = toLower b := (case_table b).2.1

theorem toLower_toLower (b : UInt8) : toLower (toLower b) = toLower b := (case_table b).2.2

theorem isSpace_toUpper (b : UInt8) : isSpace (toUpper b) = isSpace b := (class_table b).1.1

theorem isSpace_toLower (b : UInt8) : isSpace (toLower b) = isSpace b := (class_table b).1.2.1

theorem isAlpha_toUpper (b : UInt8) : isAlpha (toUpper b) = isAlpha b := (class_table b).1.2.2.1

theorem le_toLower (b : UInt8) : b ≤ toLower b := (class_table b).1.2.2.2

theorem toUpper_lt_toLower (b : UInt8) (h : isAlpha b = true) : toUpper b < toLower b :=
  (class_table b).2.1 h

theorem toUpper_of_not_isAlpha (b : UInt8) (h : isAlpha b = false) : toUpper b = b :=
  ((class_table b).2.2 h).1

theorem toLower_of_not_isAlpha (b : UInt8) (h : isAlpha b = false) : toLower b = b :=
  ((class_table b).2.2 h).2

/-- A byte that is no letter is only reached from itself, so delimiters
survive a change of case. -/
theorem toUpper_eq_iff (hc : isAlpha c = false) : toUpper b = c ↔ b = c := by
  constructor
  · rintro rfl
    rw [isAlpha_toUpper] at hc
    exact (toUpper_of_not_isAlpha b hc).symm
  · rintro rfl
    exact toUpper_of_not_isAlpha b hc

end Bytes

section LetterCase

variable {xs ys zs : ByteString} {c : UInt8}

theorem iequals_iff : iequals xs ys = true ↔ xs.map toUpper = ys.map toUpper := by
  rw [iequals, beq_iff_eq]

theorem iequals_refl (xs : ByteString) : iequals xs xs = true := iequals_iff.mpr rfl

theorem iequals_comm (xs ys : ByteString) : iequals xs ys = iequals ys xs :=
  Bool.eq_iff_iff.mpr (iequals_iff.trans (eq_comm.trans iequals_iff.symm))

/-- Strings that are equal up to case compare alike with any other, so a search
by name does not tell them apart. -/
theorem iequals_congr (h : iequals xs ys = true) (zs : ByteString) :
    iequals zs xs = iequals zs ys := by
  rw [iequals, iequals_iff.mp h, iequals]

theorem iequals_map_toUpper (xs : ByteString) : iequals xs (xs.map toUpper) = true := by
  rw [iequals_iff, List.map_map]
  exact List.map_congr_left fun b _ => (toUpper_toUpper b).symm

theorem iequals_map_toLower (xs : ByteString) : iequals xs (xs.map toLower) = true := by
  rw [iequals_iff, List.map_map]
  exact List.map_congr_left fun b _ => (toUpper_toLower b).symm

theorem iequals_append (h : iequals xs ys = true) (zs : ByteString) :
    iequals (xs ++ zs) (ys ++ zs) = true := by
  rw [iequals_iff, List.map_append, List.map_append, iequals_iff.mp h]

/-- A byte that is no letter is at the same places. -/
theorem mem_of_iequals (h : iequals xs ys = true) (hc : isAlpha c = false) (hmem : c ∈ xs) :
    c ∈ ys := by
  have hup : c ∈ xs.map toUpper := List.mem_map.mpr ⟨c, hmem, toUpper_of_not_isAlpha c hc⟩
  rw [iequals_iff.mp h] at hup
  obtain ⟨b, hb, heq⟩ := List.mem_map.mp hup
  rwa [(toUpper_eq_iff hc).mp heq] at hb

theorem exists_isAlpha_of_iequals (h : iequals xs ys = true) (hxs : ∃ b ∈ xs, isAlpha b = true) :
    ∃ b ∈ ys, isAlpha b = true := by
  obtain ⟨b, hb, halpha⟩ := hxs
  have hup : toUpper b ∈ ys.map toUpper := iequals_iff.mp h ▸ List.mem_map_of_mem hb
  obtain ⟨c, hc, heq⟩ := List.mem_map.mp hup
  exact ⟨c, hc, by rw [← isAlpha_toUpper, heq, isAlpha_toUpper, halpha]⟩

/-- Without letters there is nothing to change. -/
theorem eq_of_iequals (h : iequals xs ys = true) (hxs : ∀ b ∈ xs, isAlpha b = false) : xs = ys := by
  have h := iequals_iff.mp h
  induction xs generalizing ys with
  | nil =>
      rw [List.map_nil, eq_comm, List.map_eq_nil_iff] at h
      exact h.symm
  | cons b xs ih =>
      cases ys with
      | nil => cases h
      | cons c ys =>
          obtain ⟨hb, hxs⟩ := List.forall_mem_cons.mp hxs
          rw [List.map_cons, List.map_cons, List.cons.injEq, toUpper_of_not_isAlpha b hb] at h
          rw [(toUpper_eq_iff hb).mp h.1.symm, ih (iequals_iff.mpr h.2) hxs h.2]

theorem map_toLower_of_iequals (h : iequals xs ys = true) : xs.map toLower = ys.map toLower := by
  have heq := congrArg (List.map toLower) (iequals_iff.mp h)
  rw [List.map_map, List.map_map] at heq
  have hmap : ∀ zs : ByteString, zs.map (toLower ∘ toUpper) = zs.map toLower :=
    fun zs => List.map_congr_left fun b _ => toLower_toUpper b
  rwa [hmap, hmap] at heq

/-- Nothing that is equal up to case comes after the lower-case form, since
upper-case letters come first in ASCII. -/
theorem not_map_toLower_lt (xs : ByteString) : ¬ xs.map toLower < xs := by
  induction xs with
  | nil => exact List.not_lt_nil _
  | cons b xs ih =>
      rw [List.map_cons, List.cons_lt_cons_iff]
      rintro (hlt | ⟨-, hlt⟩)
      · exact Std.not_lt.mpr (le_toLower b) hlt
      · exact ih hlt

theorem not_lower_lt_of_iequals (h : iequals xs ys = true) : ¬ xs.map toLower < ys := by
  rw [map_toLower_of_iequals h]
  exact not_map_toLower_lt ys

theorem map_toUpper_lt (h : ∃ b ∈ xs, isAlpha b = true) : xs.map toUpper < xs.map toLower := by
  induction xs with
  | nil =>
      obtain ⟨b, hb, -⟩ := h
      cases hb
  | cons b xs ih =>
      rw [List.map_cons, List.map_cons, List.cons_lt_cons_iff]
      cases hb : isAlpha b with
      | true => exact .inl (toUpper_lt_toLower b hb)
      | false =>
          have hup := toUpper_of_not_isAlpha b hb
          have hlow := toLower_of_not_isAlpha b hb
          refine .inr ⟨by rw [hup, hlow], ih ?_⟩
          obtain ⟨c, hc, halpha⟩ := h
          obtain rfl | hc := List.mem_cons.mp hc
          · rw [hb] at halpha
            cases halpha
          · exact ⟨c, hc, halpha⟩

private theorem prefix_of_iequals {pattern : ByteString}
    (hpattern : ∀ b ∈ pattern, isAlpha b = false) (h : iequals xs ys = true)
    (hxs : pattern <+: xs) : pattern <+: ys := by
  induction pattern generalizing xs ys with
  | nil => exact List.nil_prefix
  | cons c pattern ih =>
      obtain ⟨hc, htail⟩ := List.forall_mem_cons.mp hpattern
      obtain ⟨rest, rfl⟩ := hxs
      cases ys with
      | nil => cases iequals_iff.mp h
      | cons b ys =>
          have h := iequals_iff.mp h
          rw [List.cons_append, List.map_cons, List.map_cons, List.cons.injEq] at h
          rw [toUpper_of_not_isAlpha c hc] at h
          obtain rfl := (toUpper_eq_iff hc).mp h.1.symm
          exact List.cons_prefix_cons.mpr
            ⟨rfl, ih htail (iequals_iff.mpr h.2) (List.prefix_append _ _)⟩

/-- A pattern without letters is found at the same place in strings
that are equal up to case. -/
theorem find_of_iequals {pattern : ByteString} (hpattern : ∀ b ∈ pattern, isAlpha b = false)
    (h : iequals xs ys = true) : find pattern xs = find pattern ys := by
  induction xs generalizing ys with
  | nil => rw [eq_of_iequals h (by simp)]
  | cons x xs ih =>
      cases ys with
      | nil => cases iequals_iff.mp h
      | cons y ys =>
          have htail : iequals xs ys = true := by
            have h := iequals_iff.mp h
            rw [List.map_cons, List.map_cons, List.cons.injEq] at h
            exact iequals_iff.mpr h.2
          by_cases hpre : pattern <+: x :: xs
          · rw [find_cons_of_isPrefix hpre,
              find_cons_of_isPrefix (prefix_of_iequals hpattern h hpre)]
          · have hpre' : ¬ pattern <+: y :: ys := fun hpre' =>
              hpre (prefix_of_iequals hpattern ((iequals_comm _ _).trans h) hpre')
            rw [find_cons_of_not_isPrefix hpre, find_cons_of_not_isPrefix hpre', ih htail]

end LetterCase

section Trim

variable {xs ys front back : ByteString}

def Trimmed (xs : ByteString) : Prop := trim xs = xs

instance (xs : ByteString) : Decidable (Trimmed xs) := inferInstanceAs (Decidable (trim xs = xs))

theorem trimRight_append (xs : ByteString) (h : ∀ b ∈ back, isSpace b = true) :
    trimRight (xs ++ back) = trimRight xs := by
  rw [trimRight, List.reverse_append, List.dropWhile_append_of_pos (by simpa using h), trimRight]

theorem trim_surrounded (xs : ByteString) (hfront : ∀ b ∈ front, isSpace b = true)
    (hback : ∀ b ∈ back, isSpace b = true) : trim (front ++ xs ++ back) = trim xs := by
  rw [trim, List.append_assoc, List.dropWhile_append_of_pos hfront, List.dropWhile_append]
  split
  next hxs =>
    have hnil : trim xs = trimRight [] := by rw [trim, List.isEmpty_iff.mp hxs]
    rw [List.dropWhile_eq_nil_iff.mpr hback, hnil]
  · rw [trimRight_append _ hback, trim]

theorem trim_append (xs : ByteString) (hback : ∀ b ∈ back, isSpace b = true) :
    trim (xs ++ back) = trim xs :=
  trim_surrounded xs (show ∀ b ∈ [], isSpace b = true by simp) hback

/-- Trimming commutes with any change of bytes that keeps white space. -/
theorem trim_map {f : UInt8 → UInt8} (hf : ∀ b, isSpace (f b) = isSpace b) (xs : ByteString) :
    trim (xs.map f) = (trim xs).map f := by
  have hdrop : ∀ ys : ByteString, (ys.map f).dropWhile isSpace = (ys.dropWhile isSpace).map f := by
    intro ys
    rw [List.dropWhile_map]
    exact congrArg _ (congrArg (ys.dropWhile ·) (funext hf))
  rw [trim, trimRight, hdrop, ← List.map_reverse, hdrop, ← List.map_reverse, trim, trimRight]

theorem iequals_trim (h : iequals xs ys = true) : iequals (trim xs) (trim ys) = true := by
  rw [iequals_iff, ← trim_map isSpace_toUpper, iequals_iff.mp h, trim_map isSpace_toUpper]

theorem trimRight_isPrefix (xs : ByteString) : trimRight xs <+: xs := by
  rw [trimRight, ← List.reverse_suffix, List.reverse_reverse]
  exact List.dropWhile_suffix _

theorem trim_of_not_isSpace (h : ∀ b ∈ xs, isSpace b = false) : trim xs = xs := by
  have hdrop : ∀ {ys : ByteString}, (∀ b ∈ ys, isSpace b = false) → ys.dropWhile isSpace = ys := by
    intro ys hys
    cases ys with
    | nil => rfl
    | cons y ys => rw [List.dropWhile_cons_of_neg (by simp [hys y List.mem_cons_self])]
  rw [trim, trimRight, hdrop h, hdrop (by simpa using h), List.reverse_reverse]

end Trim

section Unlines

variable {items : List ByteString} {xs : ByteString}

/-- The text with these lines, each ended by a newline. -/
def unlines (items : List ByteString) : ByteString := items.flatMap fun item => item ++ [10]

theorem unlines_cons (item : ByteString) (items : List ByteString) :
    unlines (item :: items) = item ++ 10 :: unlines items := by
  rw [unlines, List.flatMap_cons, List.append_assoc]
  rfl

theorem lines_unlines (h : ∀ item ∈ items, (10 : UInt8) ∉ item) :
    lines (unlines items) = items := by
  induction items with
  | nil => rfl
  | cons item rest ih =>
      obtain ⟨hitem, hrest⟩ := List.forall_mem_cons.mp h
      rw [unlines_cons, lines_append_newline _ hitem, ih hrest]

/-- A text that ends with a newline consists of its lines,
none lost and none added. -/
theorem unlines_lines (xs : ByteString) : unlines (lines (xs ++ [10])) = xs ++ [10] := by
  induction xs with
  | nil => rfl
  | cons x xs ih =>
      rw [List.cons_append, lines]
      split
      next hx =>
        rw [unlines_cons, ih, hx]
        rfl
      · cases hlines : lines (xs ++ [10]) with
        | nil =>
            rw [hlines] at ih
            exact absurd ih.symm (by simp [unlines])
        | cons line rest =>
            rw [hlines, unlines_cons] at ih
            simp only [unlines_cons, List.cons_append, ih]

end Unlines

end ByteString
