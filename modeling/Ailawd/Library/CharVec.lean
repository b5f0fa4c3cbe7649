import Ailawd.Library.ByteString
import Mathlib.Algebra.Group.Nat.Defs

/-!
# Growable byte buffers

`CharVec` models `std::vector<char>` as code that takes raw pointers into it sees
it: a size, a capacity, the bytes, and an identity of the current allocation. A
pointer taken with `data()` stays valid only while the allocation is the same.
`resize` within the capacity keeps the allocation; a larger one moves to a new one
and invalidates every earlier pointer.

Reads and writes by pointer are not bounds checked here; the program that makes
them states the bound it needs.
-/

/-- The largest size a byte vector can have; a larger request throws. -/
def vectorMaxSize : Nat := 2 ^ 63 - 1

structure CharVec where
  size : Nat
  capacity : Nat
  storage : Nat
  byte : Nat → UInt8

namespace CharVec

/-- A fresh vector of `n` zero bytes, as `std::vector<char>(n, 0)` makes it. -/
def zeros (n : Nat) : CharVec := ⟨n, n, 0, fun _ => 0⟩

/-- Change the size. Growth past the capacity at least doubles it, and new
bytes are zero; a smaller size keeps the storage. -/
def resize (v : CharVec) (n : Nat) : CharVec :=
  let byte := fun i => if i < v.size then v.byte i else 0
  if n ≤ v.capacity then { v with size := n, byte := byte }
  else ⟨n, max (2 * v.size) n, v.storage + 1, byte⟩

/-- Copy bytes to an offset, inside the vector or behind its end: the callers
check the bounds, as `memcpy` does not. -/
def write (v : CharVec) (offset : Nat) (bytes : ByteString) : CharVec :=
  { v with byte := fun i =>
      if offset ≤ i ∧ i < offset + bytes.length then bytes.getD (i - offset) 0 else v.byte i }

def eraseFront (v : CharVec) (n : Nat) : CharVec :=
  { v with size := v.size - n, byte := fun i => v.byte (i + n) }

/-- The `n` bytes from an offset on, read from the storage like
a pointer and a length. -/
def slice (v : CharVec) (offset n : Nat) : ByteString :=
  (List.range n).map fun i => v.byte (offset + i)

variable (v : CharVec) (offset n k : Nat) (bytes : ByteString)

@[simp] theorem resize_size : (v.resize n).size = n := by
  rw [resize]
  split <;> rfl

@[simp] theorem write_size : (v.write offset bytes).size = v.size := rfl

@[simp] theorem write_capacity : (v.write offset bytes).capacity = v.capacity := rfl

@[simp] theorem write_storage : (v.write offset bytes).storage = v.storage := rfl

@[simp] theorem eraseFront_size : (v.eraseFront n).size = v.size - n := rfl

theorem resize_byte (i : Nat) : (v.resize n).byte i = if i < v.size then v.byte i else 0 := by
  rw [resize]
  split <;> rfl

@[simp] theorem slice_length : (v.slice offset n).length = n := by simp [slice]

@[simp] theorem slice_zero : v.slice offset 0 = [] := rfl

theorem slice_getElem {i : Nat} (h : i < (v.slice offset n).length) :
    (v.slice offset n)[i] = v.byte (offset + i) := by
  simp [slice]

theorem slice_add : v.slice offset (n + k) = v.slice offset n ++ v.slice (offset + n) k := by
  simp [slice, List.range_add, Nat.add_assoc]

theorem take_slice (h : k ≤ n) : (v.slice offset n).take k = v.slice offset k := by
  obtain ⟨d, rfl⟩ := Nat.exists_eq_add_of_le h
  rw [slice_add, List.take_left' (slice_length v offset k)]

/-- Bytes just written are read back, wherever they were written. -/
@[simp] theorem slice_write_self : (v.write offset bytes).slice offset bytes.length = bytes := by
  apply List.ext_getElem (by simp)
  intro i h h'
  rw [slice_getElem]
  simp [write, h']

/-- A write leaves every range before it alone. This is the frame fact of
reading a stream into a buffer. -/
theorem slice_write_before {m : Nat} (h : m + n ≤ offset) :
    (v.write offset bytes).slice m n = v.slice m n := by
  apply List.ext_getElem (by simp)
  intro i hi hi'
  rw [slice_getElem, slice_getElem]
  have : i < n := by simpa using hi
  simp only [write]
  rw [if_neg (by omega)]

theorem slice_write_append :
    (v.write n bytes).slice 0 (n + bytes.length) = v.slice 0 n ++ bytes := by
  rw [slice_add, Nat.zero_add, slice_write_before v n n bytes (by omega), slice_write_self]

theorem slice_resize (h : offset + k ≤ v.size) :
    (v.resize n).slice offset k = v.slice offset k := by
  apply List.ext_getElem (by simp)
  intro i hi hi'
  rw [slice_getElem, slice_getElem, resize_byte, if_pos]
  have : i < k := by simpa using hi
  omega

theorem slice_eraseFront : (v.eraseFront n).slice offset k = v.slice (n + offset) k := by
  apply List.ext_getElem (by simp)
  intro i hi hi'
  rw [slice_getElem, slice_getElem]
  simp only [eraseFront]
  congr 1
  omega

theorem slice_write_prefix {m : Nat} (h : m ≤ bytes.length) :
    (v.write offset bytes).slice offset m = bytes.take m := by
  rw [← take_slice _ _ _ _ h, slice_write_self]

section Congr

variable {v} {w : CharVec} {i : Nat}

theorem resize_byte_congr (hsize : v.size = w.size) (h : v.byte i = w.byte i) :
    (v.resize n).byte i = (w.resize n).byte i := by
  rw [resize_byte, resize_byte, hsize, h]

theorem write_byte_congr (h : v.byte i = w.byte i) :
    (v.write offset bytes).byte i = (w.write offset bytes).byte i := by
  simp only [write, h]

/-- Where something is written, it does not matter what was there: two vectors
agree on the bytes of one write. -/
theorem write_byte_of_mem (v w : CharVec) {offset : Nat} {bytes : ByteString} (hlo : offset ≤ i)
    (hhi : i < offset + bytes.length) :
    (v.write offset bytes).byte i = (w.write offset bytes).byte i := by
  simp only [write, if_pos (And.intro hlo hhi)]

theorem slice_congr {k : Nat} (h : ∀ i, offset ≤ i → i < offset + k → v.byte i = w.byte i) :
    v.slice offset k = w.slice offset k := by
  refine List.map_congr_left fun i hi => h _ (Nat.le_add_right _ _) ?_
  have hlt := List.mem_range.mp hi
  omega

end Congr

end CharVec
