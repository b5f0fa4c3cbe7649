import Ailawd.Library.ByteString
import Mathlib.Data.List.Basic

/-!
# Cutting a byte stream into segments

`AtBoundary k segments` says that some segment ends after the first `k` bytes. A
reader that stops at the first boundary from `k` on stops exactly at `k` if and only
if `k` is one.
-/

namespace ByteString

def AtBoundary (k : Nat) (segments : List ByteString) : Prop :=
  ∃ front, front <+: segments ∧ front.flatten.length = k

section AtBoundary

variable {k : Nat} {seg : ByteString} {segments : List ByteString}

/-- Beyond the start, a boundary is past the first segment. -/
theorem atBoundary_cons (hk : 0 < k) :
    AtBoundary k (seg :: segments) ↔ seg.length ≤ k ∧ AtBoundary (k - seg.length) segments := by
  constructor
  · rintro ⟨front, hpre, rfl⟩
    cases front with
    | nil => simp at hk
    | cons s front =>
        obtain ⟨rfl, hrest⟩ := List.cons_prefix_cons.mp hpre
        exact ⟨by simp, front, hrest, by simp⟩
  · rintro ⟨hle, front, hpre, hlen⟩
    refine ⟨seg :: front, List.cons_prefix_cons.mpr ⟨rfl, hpre⟩, ?_⟩
    rw [List.flatten_cons, List.length_append, hlen]
    omega

theorem atBoundary_zero : AtBoundary 0 segments := ⟨[], List.nil_prefix, rfl⟩

end AtBoundary

end ByteString
