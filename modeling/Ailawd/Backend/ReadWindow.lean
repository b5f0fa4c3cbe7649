import Ailawd.Backend.Reading
import Ailawd.Library.Run

/-!
# The window of a read from the backend

`readStep` is one pass of the loop of `sync_read_from`, for any outcome of its `read_some`;
`readLoop_run` says that the loop is a run of such passes. A pass stays inside the buffer as
long as the buffer has room for what is announced. `windowSafe_iff` says that it has, except
for an announced length from -256 to -1: there `real_len + 256` wraps, and `resize` shrinks
the buffer.
-/

namespace Ailawd

open ByteString Transition

namespace ClientOps

/-- The variables of the loop, and whether it has
returned early on an error. -/
structure ReadState where
  readBuff : CharVec
  actualLen : Nat
  ended : Bool

/-- One pass of the loop. The label is what `read_some` gives: an error, or
some bytes. How many they are is up to the label, within the window. -/
def readStep (realLen : Nat) (x : ReadState) (result : Option ByteString) :
    Except (Stop Fault) ReadState :=
  if x.ended = true ∨ realLen ≤ x.actualLen then .error .disabled
  else match result with
    | none => .ok { x with ended := true }
    | some data =>
      if sizeSub x.readBuff.size x.actualLen < data.length then .error .disabled
      else if data = [] then .ok { x with ended := true }
      else if x.actualLen + data.length > x.readBuff.size then .error (.fault .outOfBounds)
      else .ok { x with readBuff := x.readBuff.write x.actualLen data
                        actualLen := x.actualLen + data.length }

def ReadState.Reads (realLen : Nat) (x : ReadState) : Prop :=
  x.ended = false ∧ x.actualLen < realLen

/-- The size that `resize` is asked for, if it is called.
The sum with 256 wraps. -/
def resizeRequest (realLen : Nat) (readBuff : CharVec) : Option Nat :=
  if realLen > readBuff.size then some ((realLen + 256) % sizeMod) else none

/-- The first read has a head, and the loop is entered with these variables,
the head erased and the buffer resized. -/
structure EntersLoop (data : ByteString) (realLen : Nat) (x : ReadState) : Prop where
  head : ∃ start length, replyHead data = some (start, length) ∧ length ≠ 0 ∧
    realLen = sizeT length ∧ growReadBuff realLen (afterHead start data) = .ok x.readBuff ∧
    x.actualLen = data.length - start
  ended : x.ended = false

/-- Whatever the later reads give, the window of each of them is inside the
buffer, the buffer is not shrunk, and the loop ends. -/
structure WindowSafe (data : ByteString) : Prop where
  request : ∀ start length size, replyHead data = some (start, length) → length ≠ 0 →
    resizeRequest (sizeT length) (afterHead start data) = some size → sizeT length ≤ size
  window : ∀ realLen x moves y, EntersLoop data realLen x → Run (readStep realLen) x moves y →
    y.Reads realLen → y.actualLen < y.readBuff.size ∧
      sizeSub y.readBuff.size y.actualLen = y.readBuff.size - y.actualLen
  ends : ∀ realLen x moves y, EntersLoop data realLen x → Run (readStep realLen) x moves y →
    moves.length ≤ realLen - x.actualLen + 1

section Loop

variable {realLen : Nat} {x y : ReadState} {result : Option ByteString}
variable {moves : List (Move ReadState (Option ByteString))}

theorem readStep_cases (hs : readStep realLen x result = .ok y) :
    x.Reads realLen ∧ (y = { x with ended := true } ∨ ∃ data, data ≠ [] ∧
      x.actualLen + data.length ≤ x.readBuff.size ∧
      y = { x with readBuff := x.readBuff.write x.actualLen data
                   actualLen := x.actualLen + data.length }) := by
  simp only [readStep] at hs
  split at hs
  · cases hs
  next hreads =>
    rw [not_or, Bool.not_eq_true, Nat.not_le] at hreads
    refine ⟨hreads, ?_⟩
    cases result with
    | none => exact .inl (Except.ok.inj hs).symm
    | some data =>
        simp only at hs
        split at hs
        · cases hs
        · split at hs
          · exact .inl (Except.ok.inj hs).symm
          next hne =>
            split at hs
            · cases hs
            next hfits => exact .inr ⟨data, hne, Nat.not_lt.mp hfits, (Except.ok.inj hs).symm⟩

/-- The passes that are left at most. Each pass that does not return early
reads a byte or more. -/
def ReadState.passes (realLen : Nat) (x : ReadState) : Nat :=
  if x.ended then 0 else realLen - x.actualLen + 1

theorem readStep_passes (hs : readStep realLen x result = .ok y) :
    y.passes realLen < x.passes realLen := by
  obtain ⟨⟨hended, hlt⟩, rfl | ⟨data, hne, -, rfl⟩⟩ := readStep_cases hs
  · simp [ReadState.passes, hended]
  · have hpos := List.length_pos_iff.mpr hne
    simp only [ReadState.passes, hended, Bool.false_eq_true, if_false]
    omega

theorem readStep_size (hs : readStep realLen x result = .ok y) :
    y.readBuff.size = x.readBuff.size := by
  obtain ⟨-, rfl | ⟨data, -, -, rfl⟩⟩ := readStep_cases hs <;> rfl

/-- The loop of `sync_read_from` is a run of passes, up to its end. What is
shown of all runs holds of it. -/
theorem readLoop_run {segments : List ByteString} {readBuff buff : CharVec} {actualLen len : Nat}
    (hr : readLoop realLen segments readBuff actualLen = .ok (len, buff)) :
    ∃ moves ended, Run (readStep realLen) ⟨readBuff, actualLen, false⟩ moves ⟨buff, len, ended⟩ ∧
      (ended = true ∨ realLen ≤ len) := by
  fun_induction readLoop realLen segments readBuff actualLen with
  | case1 segments readBuff actualLen hlt hnone =>
      obtain ⟨rfl, rfl⟩ := Prod.mk.inj (Except.ok.inj hr)
      have hs : readStep realLen ⟨readBuff, actualLen, false⟩ none =
          .ok ⟨readBuff, actualLen, true⟩ := by
        simp [readStep, Nat.not_le.mpr hlt]
      exact ⟨_, true, Run.nil.snoc hs, .inl rfl⟩
  | case2 segments readBuff actualLen hlt rest hread =>
      obtain ⟨rfl, rfl⟩ := Prod.mk.inj (Except.ok.inj hr)
      have hs : readStep realLen ⟨readBuff, actualLen, false⟩ (some []) =
          .ok ⟨readBuff, actualLen, true⟩ := by
        simp [readStep, Nat.not_le.mpr hlt]
      exact ⟨_, true, Run.nil.snoc hs, .inl rfl⟩
  | case3 segments readBuff actualLen hlt data rest hread hd hbig => cases hr
  | case4 segments readBuff actualLen hlt data rest hread hd hbig ih =>
      obtain ⟨moves, ended, hrun, hend⟩ := ih hr
      have hle := (readSome_eq_some hread).2
      have hs : readStep realLen ⟨readBuff, actualLen, false⟩ (some data) =
          .ok ⟨readBuff.write actualLen data, actualLen + data.length, false⟩ := by
        simp [readStep, Nat.not_le.mpr hlt, Nat.not_lt.mpr hle, hd, Nat.not_lt.mp hbig]
      exact ⟨_, ended, (Run.nil.snoc hs).append hrun, hend⟩
  | case5 segments readBuff actualLen hge =>
      obtain ⟨rfl, rfl⟩ := Prod.mk.inj (Except.ok.inj hr)
      exact ⟨[], false, .nil, .inr (Nat.not_lt.mp hge)⟩

end Loop

section Window

variable {data : ByteString} {realLen start : Nat} {length : Int} {x y : ReadState}
variable {moves : List (Move ReadState (Option ByteString))}

/-- What `sync_read_from` returns, if not 0, is what the loop
has counted when it ends. -/
theorem syncReadFrom_run {segments rest : List ByteString} {len : Nat} {buff : CharVec}
    (hread : readSome (32 * 1024) segments = some (data, rest))
    (hr : syncReadFrom segments (CharVec.zeros (32 * 1024)) = .ok (len, buff)) (hlen : len ≠ 0) :
    ∃ realLen x moves y, EntersLoop data realLen x ∧ Run (readStep realLen) x moves y ∧
      y.readBuff = buff ∧ y.actualLen = len ∧ ¬ y.Reads realLen := by
  rw [syncReadFrom_some hread] at hr
  cases hhead : replyHead data with
  | none =>
      simp only [hhead] at hr
      exact absurd (Prod.mk.inj (Except.ok.inj hr)).1.symm hlen
  | some head =>
      obtain ⟨start, length⟩ := head
      simp only [hhead] at hr
      split at hr
      · exact absurd (Prod.mk.inj (Except.ok.inj hr)).1.symm hlen
      next hne =>
        split at hr
        · cases hr
        next grown hgrow =>
          obtain ⟨moves, ended, hrun, hend⟩ := readLoop_run hr
          refine ⟨_, ⟨grown, data.length - start, false⟩, moves, _,
            ⟨⟨start, length, hhead, hne, rfl, hgrow, rfl⟩, rfl⟩, hrun, rfl, rfl, fun hreads => ?_⟩
          obtain rfl | hge := hend
          · cases hreads.1
          · exact Nat.not_lt.mpr hge hreads.2

/-- No pass changes the size of the buffer, so the window is where the
first read has left it. -/
theorem size_of_run (hr : Run (readStep realLen) x moves y) :
    y.readBuff.size = x.readBuff.size := by
  apply hr.invariant (I := fun y => y.readBuff.size = x.readBuff.size) rfl
  intro s a t h hs
  rw [readStep_size hs, h]

/-- The number of passes is bounded by what is
missing, whatever is announced. -/
theorem EntersLoop.ends (h : EntersLoop data realLen x) (hr : Run (readStep realLen) x moves y) :
    moves.length ≤ realLen - x.actualLen + 1 := by
  have hle := hr.length_le (ReadState.passes realLen) fun _ _ _ => readStep_passes
  have hpasses : x.passes realLen = realLen - x.actualLen + 1 := by
    simp [ReadState.passes, h.ended]
  omega

private theorem growReadBuff_of_lt (hlo : -2 ^ 31 ≤ length) (hlt : length < -256) :
    growReadBuff (sizeT length) (afterHead start data) = .error .lengthError := by
  obtain ⟨hreal, hwanted⟩ := wanted_of_neg (by omega) hlo
  rw [if_neg (by omega)] at hwanted
  have hbuf : (afterHead start data).size = 32 * 1024 - start := afterHead_size
  exact growReadBuff_throws (by omega) (by simp only [vectorMaxSize]; omega)

/-- The windows are safe unless the announced length is one of the last 256
negative ones, for which the sum wraps to a small size. -/
theorem windowSafe_iff (hlong : data.length ≤ 32 * 1024) : WindowSafe data ↔
    ∀ start length, replyHead data = some (start, length) → length < -256 ∨ 0 ≤ length := by
  constructor
  · intro hsafe start length hhead
    by_contra hneg
    obtain ⟨-, hle, -, hlo, -⟩ := replyHead_spec hhead
    obtain ⟨hreal, hwanted⟩ := wanted_of_neg (by omega) hlo
    rw [if_pos (by omega)] at hwanted
    have hbuf : (afterHead start data).size = 32 * 1024 - start := afterHead_size
    have hrequest := hsafe.request start length _ hhead (by omega)
      (if_pos (show sizeT length > (afterHead start data).size by omega))
    omega
  · intro hlength
    refine ⟨fun start length size hhead hne hsize => ?_,
      fun realLen x moves y henters hr hreads => ?_,
      fun realLen x moves y henters hr => henters.ends hr⟩
    · obtain ⟨-, -, -, hlo, hhi⟩ := replyHead_spec hhead
      simp only [resizeRequest] at hsize
      split at hsize
      · obtain rfl := Option.some.inj hsize
        obtain hlt | hge := hlength start length hhead
        · obtain ⟨hreal, hwanted⟩ := wanted_of_neg (by omega) hlo
          rw [if_neg (by omega)] at hwanted
          omega
        · obtain ⟨hreal, hwanted⟩ := wanted_of_pos (by omega) hhi
          omega
      · cases hsize
    · obtain ⟨start, length, hhead, hne, rfl, hgrow, -⟩ := henters.head
      obtain ⟨-, hstart, -, hlo, hhi⟩ := replyHead_spec hhead
      obtain hlt | hge := hlength start length hhead
      · cases (growReadBuff_of_lt hlo hlt).symm.trans hgrow
      · obtain ⟨readBuff, hgrow', hroom, -, hmod, -⟩ := grown_of_pos hlong hstart (by omega) hhi
        obtain rfl := Except.ok.inj (hgrow'.symm.trans hgrow)
        have hsize := size_of_run hr
        have hlt := hreads.2
        exact ⟨by omega, sizeSub_of_le (by omega) (by omega)⟩

end Window

def fiveAnnounced : ByteString := ofString "5:ab"

def minusOneAnnounced : ByteString := ofString "-1:" ++ List.replicate 300 97

theorem windowSafe_iff_five : fiveAnnounced.length ≤ 32 * 1024 ∧
    (WindowSafe fiveAnnounced ↔ ∀ start length,
      replyHead fiveAnnounced = some (start, length) → length < -256 ∨ 0 ≤ length) :=
  ⟨by decide, windowSafe_iff (by decide)⟩

theorem replyHead_minusOne : replyHead minusOneAnnounced = some (3, -1) := by
  have hcString : cString (minusOneAnnounced.take 20) = ofString "-1:aaaaaaaaaaaaaaaaa" := by decide
  simp only [replyHead, hcString]
  decide

/-- `resize` is asked for 255 bytes, and the loop is entered past the end of
them. The window is then nearly all of the address space. -/
theorem windowSafe_fails_minusOne : ¬ WindowSafe minusOneAnnounced ∧
    resizeRequest (sizeT (-1)) (afterHead 3 minusOneAnnounced) = some 255 ∧
    ∃ realLen x, EntersLoop minusOneAnnounced realLen x ∧ x.Reads realLen ∧
      x.readBuff.size = 255 ∧ x.actualLen = 300 ∧
      sizeSub x.readBuff.size x.actualLen = 2 ^ 64 - 45 := by
  have hrequest : resizeRequest (sizeT (-1)) (afterHead 3 minusOneAnnounced) = some 255 := by
    simp only [resizeRequest, afterHead_size]
    decide
  refine ⟨fun hsafe => ?_, hrequest, ?_⟩
  · exact absurd (hsafe.request 3 (-1) 255 replyHead_minusOne (by decide) hrequest) (by decide)
  · have hlong : minusOneAnnounced.length = 303 := by
      rw [minusOneAnnounced, List.length_append, List.length_replicate]
      rfl
    have hgrown : ∃ readBuff, growReadBuff (sizeT (-1)) (afterHead 3 minusOneAnnounced) =
        .ok readBuff ∧ (readBuff.size : Int) = -1 + 256 ∧
        readBuff.slice 0 (minusOneAnnounced.length - 3) = minusOneAnnounced.drop 3 :=
      grown_of_wrapped (by omega) (by omega) (by decide) (by decide)
    obtain ⟨readBuff, hgrow, hsize, -⟩ := hgrown
    have hread : readBuff.size = 255 := by omega
    have hreads : 300 < sizeT (-1) := by decide
    refine ⟨sizeT (-1), ⟨readBuff, 300, false⟩,
      ⟨⟨3, -1, replyHead_minusOne, by decide, rfl, hgrow, by rw [hlong]⟩, rfl⟩,
      ⟨rfl, hreads⟩, hread, rfl, ?_⟩
    simp only [hread]
    decide

end ClientOps

end Ailawd
