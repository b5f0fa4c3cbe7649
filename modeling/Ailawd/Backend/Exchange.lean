import Ailawd.Backend.WholeReplies

/-!
# What one exchange with the backend returns

The reply may be any bytes in any segments. What `sync_read_from` does with them is
decided by the head of the first read: without one it returns 0; a positive length is
read until it has arrived or the stream ends; a length from -256 on shrinks the buffer,
which the first read may already overrun; below that `resize` throws.
-/

namespace Ailawd

open ByteString

namespace ClientOps

/-- The head that is acted on: where the rest begins, and the length. A length
of 0 counts as no head. -/
def announced (reads : List ByteString) : Option (Nat × Int) :=
  match readSome (32 * 1024) reads with
  | none => none
  | some (data, _) => (replyHead data).filter fun head => head.2 ≠ 0

/-- How much of the stream the first read gets: of its first
segment, what the buffer holds. -/
def firstRead (reads : List ByteString) : Nat := min (reads.headD []).length (32 * 1024)

section Returns

variable {reads rest : List ByteString} {data : ByteString} {start : Nat} {length : Int}

theorem announced_spec (h : announced reads = some (start, length)) :
    ∃ data rest, readSome (32 * 1024) reads = some (data, rest) ∧
      replyHead data = some (start, length) ∧ length ≠ 0 ∧ data.length = firstRead reads := by
  simp only [announced] at h
  split at h
  · cases h
  next data rest hread =>
    obtain ⟨hhead, hne⟩ := Option.filter_eq_some_iff.mp h
    exact ⟨data, rest, hread, hhead, by simpa using hne, readSome_length hread⟩

theorem syncReadFrom_of_none (h : announced reads = none) :
    ∃ buff, syncReadFrom reads (CharVec.zeros (32 * 1024)) = .ok (0, buff) := by
  simp only [announced] at h
  split at h
  next hread => exact ⟨_, syncReadFrom_none hread⟩
  next data rest hread =>
    rw [syncReadFrom_some hread]
    cases hhead : replyHead data with
    | none => exact ⟨_, rfl⟩
    | some head =>
        obtain ⟨start, length⟩ := head
        have hzero : length = 0 := by simpa [hhead] using h
        exact ⟨_, if_pos hzero⟩

end Returns

section Returns

variable {reads rest : List ByteString} {data : ByteString} {start : Nat} {length : Int}

/-- A positive length: some of what follows the head comes back, if anything
does. The result is 0 otherwise. -/
theorem syncReadFrom_of_pos (hne : ∀ seg ∈ reads, seg ≠ [])
    (h : announced reads = some (start, length)) (hpos : 0 < length) :
    ∃ len buff, syncReadFrom reads (CharVec.zeros (32 * 1024)) = .ok (len, buff) ∧
      len ≤ buff.size ∧ (len = 0 ↔ reads.flatten.length = start) ∧
      buff.slice 0 len = (reads.flatten.drop start).take len := by
  obtain ⟨data, rest, hread, hhead, hne', -⟩ := announced_spec h
  obtain ⟨-, hstart, -, -, hupper⟩ := replyHead_spec hhead
  obtain ⟨hstream, hlong⟩ := readSome_eq_some hread
  obtain ⟨readBuff, hgrow, hreal, hroom, hbound, -, -, hslice⟩ :=
    grown_of_pos hlong hstart hpos hupper
  obtain ⟨len, buff, hloop, hlow, hhigh, -, hsize, hbytes⟩ :=
    readLoop_spec (sizeT length) rest hroom hbound
  have hsync := syncReadFrom_some hread
  simp only [hhead] at hsync
  rw [if_neg hne', show ((CharVec.zeros (32 * 1024)).write 0 data).eraseFront start =
    afterHead start data from rfl, hgrow] at hsync
  simp only [hloop] at hsync
  have hwanted := (wanted_of_pos hpos hupper).1
  refine ⟨len, buff, hsync, hsize ▸ hhigh, ?_, ?_⟩
  · rw [total_eq_iff hne hread hstart]
    constructor
    · intro hlen
      refine ⟨by omega, ?_⟩
      by_contra hrest
      have hlt := readLoop_lt (by omega) (by omega) hbound hrest
        (readSome_nonempty hread hne).2 hloop
      omega
    · rintro ⟨hd, rfl⟩
      rw [readLoop_nil] at hloop
      obtain ⟨rfl, -⟩ := Prod.mk.inj (Except.ok.inj hloop)
      omega
  · rw [hbytes, hslice, ← hstream, List.drop_append_of_le_length hstart, List.take_append,
      List.length_drop,
      List.take_of_length_le (l := data.drop start) (by rw [List.length_drop]; exact hlow)]

/-- A length from -256 on: the first read overruns the buffer, or
what is returned fits it. -/
theorem syncReadFrom_of_wrapped (hne : ∀ seg ∈ reads, seg ≠ [])
    (h : announced reads = some (start, length)) (hneg : length < 0) (hlo : -256 ≤ length) :
    if (firstRead reads : Int) ≤ start + length + 256 then
      ∃ len buff, syncReadFrom reads (CharVec.zeros (32 * 1024)) = .ok (len, buff) ∧
        len ≤ buff.size ∧ (len = 0 ↔ reads.flatten.length = start ∨ length = -256)
    else syncReadFrom reads (CharVec.zeros (32 * 1024)) = .error .outOfBounds ∨
      ∃ len buff, syncReadFrom reads (CharVec.zeros (32 * 1024)) = .ok (len, buff) ∧
        buff.size < len := by
  obtain ⟨data, rest, hread, hhead, hne', hfirst⟩ := announced_spec h
  obtain ⟨-, hstart, -, hlower, -⟩ := replyHead_spec hhead
  have hlong := (readSome_eq_some hread).2
  obtain ⟨readBuff, hgrow, hbuf, -⟩ := grown_of_wrapped hlong hstart hneg hlo
  have hmod : sizeMod = 2 ^ 64 := rfl
  have hreal := (wanted_of_neg hneg hlower).1
  have hsync := syncReadFrom_some hread
  simp only [hhead] at hsync
  rw [if_neg hne', show ((CharVec.zeros (32 * 1024)).write 0 data).eraseFront start =
    afterHead start data from rfl, hgrow] at hsync
  simp only at hsync
  split
  next hfits =>
    have hroom : data.length - start ≤ readBuff.size := by omega
    obtain ⟨len, buff, hloop, hlow, hhigh, -, hsize, -⟩ :=
      readLoop_spec (sizeT length) rest hroom (by omega)
    refine ⟨len, buff, hsync.trans hloop, hsize ▸ hhigh, ?_⟩
    rw [total_eq_iff hne hread hstart]
    constructor
    · intro hlen
      by_cases hfull : length = -256
      · exact .inr hfull
      · refine .inl ⟨by omega, ?_⟩
        by_contra hrest
        have hlt := readLoop_lt (by omega) (by omega) (by omega) hrest
          (readSome_nonempty hread hne).2 hloop
        omega
    · rintro (⟨hd, rfl⟩ | hfull)
      · rw [readLoop_nil] at hloop
        obtain ⟨rfl, -⟩ := Prod.mk.inj (Except.ok.inj hloop)
        omega
      · omega
  next hover =>
    rw [readLoop, if_pos (by omega)] at hsync
    split at hsync
    · exact .inr ⟨_, _, hsync, by omega⟩
    next data' rest' hread' =>
      split at hsync
      · exact .inr ⟨_, _, hsync, by omega⟩
      next hne'' =>
        have hpos := List.length_pos_iff.mpr hne''
        rw [if_pos (by omega)] at hsync
        exact .inl hsync

theorem syncReadFrom_of_lt (h : announced reads = some (start, length)) (hneg : length < -256) :
    syncReadFrom reads (CharVec.zeros (32 * 1024)) = .error .lengthError := by
  obtain ⟨data, rest, hread, hhead, hne, -⟩ := announced_spec h
  obtain ⟨-, -, -, hlower, -⟩ := replyHead_spec hhead
  obtain ⟨hreal, hwanted⟩ := wanted_of_neg (by omega) hlower
  rw [if_neg (by omega)] at hwanted
  have hbuf : (afterHead start data).size = 32 * 1024 - start := afterHead_size
  rw [syncReadFrom_some hread]
  simp only [hhead]
  rw [if_neg hne, show ((CharVec.zeros (32 * 1024)).write 0 data).eraseFront start =
    afterHead start data from rfl, growReadBuff_throws (by omega)
    (by simp only [vectorMaxSize]; omega)]

end Returns

end ClientOps

end Ailawd
