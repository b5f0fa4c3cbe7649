import Ailawd.Library.ByteString
import Mathlib.Algebra.Group.Int.Defs
import Mathlib.Algebra.Group.Nat.Defs
import Mathlib.Data.List.TakeWhile

/-!
# Numbers crossing C types

`atoi` is `strtol` truncated to a 32-bit `int`: leading white space, one optional
sign and as many digits as follow are read, the value saturates at the ends of a
64-bit `long`, and the low 32 bits are taken as a signed number. `sizeT` is the
conversion to an unsigned 64-bit `size_t`. Arithmetic on sizes is written with an
explicit remainder where it can wrap.
-/

namespace ByteString

def sizeMod : Nat := 2 ^ 64

def digitsValue (digits : ByteString) : Nat :=
  digits.foldl (fun acc d => acc * 10 + (d.toNat - 48)) 0

/-- Clamp to the range of a 64-bit `long`, as `strtol` does
with a number outside it. -/
def clampLong (i : Int) : Int := max (-2 ^ 63) (min i (2 ^ 63 - 1))

/-- The number that a text starts with, or 0: white space is skipped, a sign
may follow, and the digits end at the first other byte. -/
def numberValue (text : ByteString) : Int :=
  match text.dropWhile isSpace with
  | [] => 0
  | b :: bs =>
    if b = 45 then -(digitsValue (bs.takeWhile isDigit) : Int)
    else if b = 43 then digitsValue (bs.takeWhile isDigit)
    else digitsValue ((b :: bs).takeWhile isDigit)

def strtol (text : ByteString) : Int := clampLong (numberValue text)

def atoi (text : ByteString) : Int := (strtol text).bmod (2 ^ 32)

/-- Conversion of a signed number to `size_t`, which wraps: a negative number
becomes a very large one. -/
def sizeT (i : Int) : Nat := (i % (sizeMod : Int)).toNat

theorem atoi_lower (text : ByteString) : -2 ^ 31 ≤ atoi text := by
  have := Int.le_bmod (x := strtol text) (m := 2 ^ 32) (by decide)
  rw [atoi]
  omega

theorem atoi_upper (text : ByteString) : atoi text < 2 ^ 31 := by
  have := Int.bmod_lt (x := strtol text) (m := 2 ^ 32) (by decide)
  rw [atoi]
  omega

theorem sizeT_of_nonneg {i : Int} (h : 0 ≤ i) (h' : i < 2 ^ 31) : (sizeT i : Int) = i := by
  have hm : i % (sizeMod : Int) = i := Int.emod_eq_of_lt h (by simp [sizeMod]; omega)
  simp only [sizeT, hm]
  omega

theorem sizeT_natCast {n : Nat} (h : n < 2 ^ 31) : sizeT n = n := by
  have := sizeT_of_nonneg (i := n) (by omega) (by omega)
  omega

/-- A negative `int` becomes a size just below `2 ^ 64`, large enough to pass
every test for a minimum. -/
theorem sizeT_of_neg {i : Int} (h : i < 0) (h' : -2 ^ 31 ≤ i) :
    (sizeT i : Int) = 2 ^ 64 + i := by
  have hm : i % (sizeMod : Int) = 2 ^ 64 + i := by
    rw [← Int.add_emod_right i (sizeMod : Int)]
    rw [Int.emod_eq_of_lt (by simp [sizeMod]; omega) (by simp [sizeMod]; omega)]
    simp [sizeMod]
    omega
  simp only [sizeT, hm]
  omega

theorem sizeT_eq_zero_iff {i : Int} (h : -2 ^ 31 ≤ i) (h' : i < 2 ^ 31) : sizeT i = 0 ↔ i = 0 := by
  by_cases hneg : i < 0
  · have := sizeT_of_neg hneg h
    omega
  · have := sizeT_of_nonneg (i := i) (by omega) h'
    omega

theorem sizeT_lt (i : Int) : sizeT i < 2 ^ 64 := by
  have h0 : 0 ≤ i % (sizeMod : Int) := Int.emod_nonneg _ (by simp [sizeMod])
  have h1 : i % (sizeMod : Int) < (sizeMod : Int) := Int.emod_lt_of_pos _ (by simp [sizeMod])
  have h2 : (sizeMod : Int) = 2 ^ 64 := by simp [sizeMod]
  rw [sizeT]
  omega

private def decimalAux : Nat → Nat → ByteString → ByteString
  | 0, _, acc => acc
  | fuel + 1, n, acc =>
    if n < 10 then UInt8.ofNat (48 + n) :: acc
    else decimalAux fuel (n / 10) (UInt8.ofNat (48 + n % 10) :: acc)

/-- The decimal numeral that `std::to_string` writes: no
sign and no leading zeros. -/
def decimal (n : Nat) : ByteString := decimalAux (n + 1) n []

private theorem digit_toNat {d : Nat} (h : d < 10) : (UInt8.ofNat (48 + d)).toNat = 48 + d := by
  rw [UInt8.toNat_ofNat']
  omega

private theorem digit_isDigit {d : Nat} (h : d < 10) : isDigit (UInt8.ofNat (48 + d)) = true := by
  have ht := digit_toNat h
  simp only [isDigit, Bool.and_eq_true, decide_eq_true_eq, UInt8.le_iff_toNat_le, ht]
  exact ⟨Nat.le_add_right 48 d, by simp; omega⟩

private theorem foldl_decimalAux (fuel : Nat) : ∀ n acc, n < fuel →
    (decimalAux fuel n acc).foldl (fun v d => v * 10 + (d.toNat - 48)) 0 =
      acc.foldl (fun v d => v * 10 + (d.toNat - 48)) n := by
  induction fuel with
  | zero => intro n acc h; omega
  | succ fuel ih =>
      intro n acc h
      simp only [decimalAux]
      split
      next hn => rw [List.foldl_cons, digit_toNat hn, Nat.zero_mul, Nat.zero_add,
          Nat.add_sub_cancel_left]
      next hn =>
        rw [ih (n / 10) _ (by omega), List.foldl_cons, digit_toNat (Nat.mod_lt _ (by decide))]
        congr 1
        omega

private theorem decimalAux_isDigit (fuel : Nat) : ∀ n acc,
    (∀ b ∈ acc, isDigit b = true) → ∀ b ∈ decimalAux fuel n acc, isDigit b = true := by
  induction fuel with
  | zero => exact fun _ _ h => h
  | succ fuel ih =>
      intro n acc h
      simp only [decimalAux]
      split
      next hn => exact List.forall_mem_cons.mpr ⟨digit_isDigit hn, h⟩
      next hn =>
        apply ih _ _
        intro b hb
        rcases List.mem_cons.mp hb with rfl | hb
        · exact digit_isDigit (Nat.mod_lt _ (by decide))
        · exact h b hb

private theorem length_decimalAux (fuel : Nat) : ∀ n acc k, n < 10 ^ (k + 1) →
    (decimalAux fuel n acc).length ≤ k + 1 + acc.length := by
  induction fuel with
  | zero => exact fun _ _ _ _ => Nat.le_add_left _ _
  | succ fuel ih =>
      intro n acc k h
      simp only [decimalAux]
      split
      · rw [List.length_cons]
        omega
      next hn =>
        cases k with
        | zero => exact absurd h hn
        | succ k =>
            have hdiv : n / 10 < 10 ^ (k + 1) := by
              rw [Nat.div_lt_iff_lt_mul (by decide), ← Nat.pow_succ]
              exact h
            apply Nat.le_trans (ih _ _ k hdiv)
            rw [List.length_cons]
            omega

theorem length_decimal_le {n k : Nat} (h : n < 10 ^ (k + 1)) : (decimal n).length ≤ k + 1 :=
  length_decimalAux (n + 1) n [] k h

/-- A numeral denotes its number. -/
theorem digitsValue_decimal (n : Nat) : digitsValue (decimal n) = n :=
  foldl_decimalAux (n + 1) n [] (Nat.lt_succ_self n)

theorem isDigit_of_mem_decimal {n : Nat} : ∀ b ∈ decimal n, isDigit b = true :=
  decimalAux_isDigit (n + 1) n [] (by simp)

theorem decimal_ne_nil (n : Nat) : decimal n ≠ [] := by
  intro h
  have hv := digitsValue_decimal n
  obtain rfl : n = 0 := by simpa [h, digitsValue] using hv.symm
  exact absurd h (by decide)

private theorem not_space_of_isDigit {b : UInt8} (h : isDigit b = true) : isSpace b = false := by
  simp only [isDigit, Bool.and_eq_true, decide_eq_true_eq, UInt8.le_iff_toNat_le] at h
  have h48 : (48 : UInt8).toNat = 48 := rfl
  simp only [isSpace, Bool.or_eq_false_iff, beq_eq_false_iff_ne, ne_eq, Bool.and_eq_false_iff,
    decide_eq_false_iff_not, UInt8.le_iff_toNat_le, ← UInt8.toNat_inj]
  have h32 : (32 : UInt8).toNat = 32 := rfl
  have h13 : (13 : UInt8).toNat = 13 := rfl
  omega

private theorem ne_of_isDigit {b c : UInt8} (h : isDigit b = true) (hc : c < 48) : b ≠ c := by
  rintro rfl
  simp only [isDigit, Bool.and_eq_true, decide_eq_true_eq, UInt8.le_iff_toNat_le] at h
  rw [UInt8.lt_iff_toNat_lt] at hc
  omega

theorem numberValue_decimal (n : Nat) : numberValue (decimal n) = n := by
  have digits := isDigit_of_mem_decimal (n := n)
  have value := digitsValue_decimal n
  cases hd : decimal n with
  | nil => exact absurd hd (decimal_ne_nil n)
  | cons b bs =>
      rw [hd] at digits value
      have hb : isDigit b = true := digits b (by simp)
      have hall : (b :: bs).takeWhile isDigit = b :: bs :=
        List.takeWhile_eq_self_iff.mpr digits
      have hdrop : (b :: bs).dropWhile isSpace = b :: bs := by
        simp [List.dropWhile, not_space_of_isDigit hb]
      simp only [numberValue, hdrop, if_neg (ne_of_isDigit hb (c := 45) (by decide)),
        if_neg (ne_of_isDigit hb (c := 43) (by decide)), hall, value]

theorem atoi_of_small {text : ByteString} (h : 0 ≤ numberValue text)
    (h' : numberValue text < 2 ^ 31) : atoi text = numberValue text := by
  have hclamp : clampLong (numberValue text) = numberValue text := by
    rw [clampLong]
    omega
  rw [atoi, strtol, hclamp]
  exact Int.bmod_eq_of_le (by omega) (by omega)

theorem atoi_decimal {n : Nat} (h : n < 2 ^ 31) : atoi (decimal n) = n := by
  have hv := numberValue_decimal n
  rw [atoi_of_small (by omega) (by omega), hv]

end ByteString
