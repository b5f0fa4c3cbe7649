/-!
# Byte strings with C and C++ string operations

Strings are lists of bytes, so a string may hold NUL bytes and the places where a
program cuts it at the first one are visible. The operations follow the C locale:
case and white space are ASCII, and bytes from 128 on belong to no class.

`find` is the substring search shared by `strstr`, `std::string::find` and reads
that stop at a delimiter. Its lemmas say that a match is stable under appending
and that a shorter string cannot move it.
-/

abbrev ByteString := List UInt8

namespace ByteString

/-- The bytes of an ASCII literal. -/
def ofString (text : String) : ByteString := text.toList.map fun c => UInt8.ofNat c.toNat

/-- What a program sees of a string through `c_str()`: the bytes up to the
first NUL, whatever the length that the string object knows. -/
def cString (xs : ByteString) : ByteString := xs.takeWhile (· ≠ 0)

def isSpace (b : UInt8) : Bool := b == 32 || (9 ≤ b && b ≤ 13)

def isDigit (b : UInt8) : Bool := 48 ≤ b && b ≤ 57

def isAlpha (b : UInt8) : Bool := (65 ≤ b && b ≤ 90) || (97 ≤ b && b ≤ 122)

def toUpper (b : UInt8) : UInt8 := if 97 ≤ b && b ≤ 122 then b - 32 else b

/-- Comparison that ignores ASCII case. -/
def iequals (xs ys : ByteString) : Bool := xs.map toUpper == ys.map toUpper

def trimRight (xs : ByteString) : ByteString := (xs.reverse.dropWhile isSpace).reverse

def trim (xs : ByteString) : ByteString := trimRight (xs.dropWhile isSpace)

/-- The first position at which `pattern` occurs, as in `std::string::find`; an
empty pattern is found at the start. -/
def find (pattern : ByteString) : ByteString → Option Nat
  | [] => if pattern = [] then some 0 else none
  | x :: xs =>
    if pattern.isPrefixOf (x :: xs) then some 0 else (find pattern xs).map (· + 1)

/-- The lines that repeated `std::getline` calls extract: each newline ends one
line and is discarded, and a final line may lack it. -/
def lines : ByteString → List ByteString
  | [] => []
  | b :: bs =>
    if b = 10 then [] :: lines bs
    else match lines bs with
      | [] => [[b]]
      | line :: rest => (b :: line) :: rest

theorem cString_append_of_not_mem {xs : ByteString} (ys : ByteString) (h : (0 : UInt8) ∉ xs) :
    cString (xs ++ ys) = xs ++ cString ys := by
  rw [cString]
  apply List.takeWhile_append_of_pos
  intro b hb
  simpa using fun hz : b = 0 => h (hz ▸ hb)

theorem cString_eq_self {xs : ByteString} (h : (0 : UInt8) ∉ xs) : cString xs = xs := by
  have h' := cString_append_of_not_mem [] h
  rwa [List.append_nil, show cString [] = [] from rfl, List.append_nil] at h'

theorem zero_notMem_cString (xs : ByteString) : (0 : UInt8) ∉ cString xs := by
  induction xs with
  | nil => exact List.not_mem_nil
  | cons x xs ih =>
      rw [cString, List.takeWhile_cons]
      split
      next hx => exact List.not_mem_cons_of_ne_of_not_mem (Ne.symm (of_decide_eq_true hx)) ih
      · exact List.not_mem_nil

theorem cString_cString (xs : ByteString) : cString (cString xs) = cString xs :=
  cString_eq_self (zero_notMem_cString xs)

/-- A string comes through whole if it has no NUL byte, and only then. -/
theorem cString_eq_self_iff {xs : ByteString} : cString xs = xs ↔ (0 : UInt8) ∉ xs := by
  constructor
  · intro h
    rw [← h]
    exact zero_notMem_cString xs
  · exact cString_eq_self

theorem cString_append_zero (xs ys : ByteString) : cString (xs ++ 0 :: ys) = cString xs := by
  induction xs with
  | nil => rfl
  | cons x xs ih =>
      rw [List.cons_append, cString, List.takeWhile_cons, cString, List.takeWhile_cons]
      split
      · exact congrArg (x :: ·) ih
      · rfl

theorem cString_isPrefix (xs : ByteString) : cString xs <+: xs := List.takeWhile_prefix _

section Find

variable {pattern xs : ByteString} {i : Nat}

theorem find_cons_of_isPrefix {x : UInt8} (h : pattern <+: x :: xs) :
    find pattern (x :: xs) = some 0 := by
  simp [find, List.isPrefixOf_iff_prefix.mpr h]

theorem find_cons_of_not_isPrefix {x : UInt8} (h : ¬ pattern <+: x :: xs) :
    find pattern (x :: xs) = (find pattern xs).map (· + 1) := by
  simp only [find, List.isPrefixOf_iff_prefix, if_neg h]

theorem find_nil_eq_some (h : find pattern [] = some i) : i = 0 ∧ pattern = [] := by
  simp only [find] at h
  split at h
  next he => exact ⟨(Option.some.inj h).symm, he⟩
  next => cases h

theorem find_cons_eq_some {x : UInt8} (h : find pattern (x :: xs) = some i) :
    (pattern <+: x :: xs ∧ i = 0) ∨
      ¬ pattern <+: x :: xs ∧ ∃ j, find pattern xs = some j ∧ i = j + 1 := by
  by_cases hp : pattern <+: x :: xs
  · rw [find_cons_of_isPrefix hp] at h
    exact .inl ⟨hp, (Option.some.inj h).symm⟩
  · rw [find_cons_of_not_isPrefix hp] at h
    obtain ⟨j, hj, hi⟩ := Option.map_eq_some_iff.mp h
    exact .inr ⟨hp, j, hj, hi.symm⟩

theorem find_add_length_le (h : find pattern xs = some i) : i + pattern.length ≤ xs.length := by
  induction xs generalizing i with
  | nil =>
      obtain ⟨rfl, rfl⟩ := find_nil_eq_some h
      exact Nat.le_refl 0
  | cons x xs ih =>
      obtain ⟨hp, rfl⟩ | ⟨-, j, hj, rfl⟩ := find_cons_eq_some h
      · simpa using hp.length_le
      · have := ih hj
        simp only [List.length_cons]
        omega

theorem find_isPrefix (h : find pattern xs = some i) : pattern <+: xs.drop i := by
  induction xs generalizing i with
  | nil =>
      obtain ⟨rfl, rfl⟩ := find_nil_eq_some h
      exact List.nil_prefix
  | cons x xs ih =>
      obtain ⟨hp, rfl⟩ | ⟨-, j, hj, rfl⟩ := find_cons_eq_some h
      · exact hp
      · exact ih hj

/-- Bytes appended after a match do not move it, so a delimiter found in what
has arrived stays where it is. -/
theorem find_append (h : find pattern xs = some i) (ys : ByteString) :
    find pattern (xs ++ ys) = some i := by
  induction xs generalizing i with
  | nil =>
      obtain ⟨rfl, rfl⟩ := find_nil_eq_some h
      cases ys <;> simp [find]
  | cons x xs ih =>
      obtain ⟨hp, rfl⟩ | ⟨hp, j, hj, rfl⟩ := find_cons_eq_some h
      · exact find_cons_of_isPrefix (hp.trans (List.prefix_append _ _))
      · have hlen := find_add_length_le hj
        have hp' : ¬ pattern <+: x :: (xs ++ ys) := by
          intro hpre
          refine hp (List.prefix_of_prefix_length_le hpre
            (List.prefix_append (x :: xs) ys) ?_)
          simp only [List.length_cons]
          omega
        rw [List.cons_append, find_cons_of_not_isPrefix hp', ih hj]
        rfl

/-- A match that ends inside a prefix is already the match of that prefix. With
`find_append` this makes the position independent of how the bytes arrive. -/
theorem find_of_append {ys : ByteString} (h : find pattern (xs ++ ys) = some i)
    (hi : i + pattern.length ≤ xs.length) : find pattern xs = some i := by
  induction xs generalizing i with
  | nil =>
      obtain ⟨hz, hp⟩ : i = 0 ∧ pattern = [] := by simpa using hi
      simp [find, hp, hz]
  | cons x xs ih =>
      obtain ⟨hp, rfl⟩ | ⟨hp, j, hj, rfl⟩ := find_cons_eq_some h
      · refine find_cons_of_isPrefix (List.prefix_of_prefix_length_le hp
          (List.prefix_append (x :: xs) ys) (by simpa using hi))
      · have hp' : ¬ pattern <+: x :: xs := fun hpre =>
          hp (hpre.trans (List.prefix_append (x :: xs) ys))
        rw [find_cons_of_not_isPrefix hp', ih hj (by simp at hi; omega)]
        rfl

/-- Two strings with a common prefix that holds a whole
match agree on its position. -/
theorem find_eq_of_prefix {ys : ByteString} {j : Nat} (hpre : xs <+: ys)
    (h : find pattern xs = some i) (h' : find pattern ys = some j) : i = j := by
  obtain ⟨zs, rfl⟩ := hpre
  exact Option.some.inj ((find_append h zs).symm.trans h')

theorem find_singleton_append {b : UInt8} {front : ByteString} (back : ByteString)
    (h : b ∉ front) : find [b] (front ++ b :: back) = some front.length := by
  induction front with
  | nil => exact find_cons_of_isPrefix ⟨back, rfl⟩
  | cons x xs ih =>
      have hne : ¬ [b] <+: x :: (xs ++ b :: back) := by
        intro hp
        have hbx := (List.cons_prefix_cons.mp hp).1
        exact h (hbx ▸ List.mem_cons_self)
      rw [List.cons_append, find_cons_of_not_isPrefix hne,
        ih fun hm => h (List.mem_cons_of_mem _ hm)]
      rfl

theorem find_singleton_eq_none {b : UInt8} (h : b ∉ xs) : find [b] xs = none := by
  induction xs with
  | nil => rfl
  | cons x xs ih =>
      have hne : ¬ [b] <+: x :: xs := by
        intro hp
        have hbx := (List.cons_prefix_cons.mp hp).1
        exact h (hbx ▸ List.mem_cons_self)
      rw [find_cons_of_not_isPrefix hne, ih fun hm => h (List.mem_cons_of_mem _ hm)]
      rfl

end Find

section Lines

variable {xs line : ByteString} {b : UInt8}

theorem lines_append_newline (ys : ByteString) (h : (10 : UInt8) ∉ xs) :
    lines (xs ++ 10 :: ys) = xs :: lines ys := by
  induction xs with
  | nil => rfl
  | cons x xs ih =>
      obtain ⟨hx, hxs⟩ := List.ne_and_not_mem_of_not_mem_cons h
      rw [List.cons_append, lines, if_neg (Ne.symm hx), ih hxs]

theorem newline_notMem_of_mem_lines (h : line ∈ lines xs) : (10 : UInt8) ∉ line := by
  induction xs generalizing line with
  | nil => cases h
  | cons x xs ih =>
      simp only [lines] at h
      split at h
      · obtain rfl | h := List.mem_cons.mp h
        · exact List.not_mem_nil
        · exact ih h
      next hx =>
        cases hxs : lines xs with
        | nil =>
            rw [hxs] at h
            obtain rfl := List.mem_singleton.mp h
            simpa using Ne.symm hx
        | cons first rest =>
            rw [hxs] at h
            obtain rfl | h := List.mem_cons.mp h
            · have hfirst := ih (hxs ▸ List.mem_cons_self)
              simpa using ⟨Ne.symm hx, hfirst⟩
            · exact ih (hxs ▸ List.mem_cons_of_mem _ h)

theorem mem_of_mem_lines (h : line ∈ lines xs) (hb : b ∈ line) : b ∈ xs := by
  induction xs generalizing line with
  | nil => cases h
  | cons x xs ih =>
      simp only [lines] at h
      split at h
      · obtain rfl | h := List.mem_cons.mp h
        · cases hb
        · exact List.mem_cons_of_mem _ (ih h hb)
      · cases hxs : lines xs with
        | nil =>
            rw [hxs] at h
            obtain rfl := List.mem_singleton.mp h
            exact List.mem_cons.mpr (.inl (List.mem_singleton.mp hb))
        | cons first rest =>
            rw [hxs] at h
            obtain rfl | h := List.mem_cons.mp h
            · obtain rfl | hb := List.mem_cons.mp hb
              · exact List.mem_cons_self
              · exact List.mem_cons_of_mem _ (ih (hxs ▸ List.mem_cons_self) hb)
            · exact List.mem_cons_of_mem _ (ih (hxs ▸ List.mem_cons_of_mem _ h) hb)

end Lines

end ByteString
